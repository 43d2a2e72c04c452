import Nixie.Euf.DiseqScopes

/-! Closing a scope gives back the state in which it was opened. -/

namespace Nixie.Euf

open List Function Option

namespace EufSolver

/-- The state has evolved from an earlier one without closing its scopes. -/
structure Grows (s before : EufSolver) : Prop where
  nodes : before.nodes <+: s.nodes
  terms : ∀ term, (s.termToNode term).filter (· < before.nodes.length) = before.termToNode term
  properties : s.functionProperties = before.functionProperties

/-- Closing the open scopes gives back the saved states, innermost first. -/
structure Restores (s : EufSolver) (saved : List EufSolver) : Prop where
  context : s.contextStack =
    saved.map fun before => (before.nodes.length, before.diseq.diseqs.length)
  uf : s.uf.Restores (saved.map fun before => ((), before.uf.parent, before.uf.rank))
  sig : s.sig.Restores (saved.map fun before => (before.nodes.length, before.sig.data))
  uses : s.useList.Restores (saved.map fun before => (before.nodes.length, before.useList.lists))
  edges : s.proofForest.Restores
    (saved.map fun before => (before.nodes.length, before.proofForest.lists))
  diseq : s.diseq.Restores (saved.map fun before => (before.nodes.length, before.diseq))
  grows : (s :: saved).Pairwise Grows

/-- Two states that differ in what no result depends on: sizes, stamps and undo trails. -/
structure SameCore (s before : EufSolver) : Prop where
  nodes : s.nodes = before.nodes
  terms : s.termToNode = before.termToNode
  properties : s.functionProperties = before.functionProperties
  uf : before.uf.WellFormed before.nodes.length → s.uf.WellFormed before.nodes.length
  root : s.root = before.root
  sig : s.sig.data = before.sig.data
  uses : s.useList.lists = before.useList.lists
  edges : s.proofForest.lists = before.proofForest.lists
  diseqs : s.diseq.diseqs = before.diseq.diseqs
  counts : s.diseq.diseqPairCounts = before.diseq.diseqPairCounts
  watch : s.diseq.diseqWatch.lists = before.diseq.diseqWatch.lists
  conflict : s.diseq.pendingDiseqConflict = before.diseq.pendingDiseqConflict
  stamps : ∀ idx, s.diseq.diseqStamp idx ≤ s.diseq.diseqStampGen
  pending : s.pending = before.pending

variable {s after before : EufSolver} {saved older : List EufSolver}

theorem Grows.trans (later : Grows after s) (earlier : Grows s before) : Grows after before where
  nodes := earlier.nodes.trans later.nodes
  terms := by
    intro term
    have shorter := earlier.nodes.length_le
    rw [← earlier.terms term, ← later.terms term, Option.filter_filter]
    congr 1
    funext idx
    by_cases old : idx < before.nodes.length
    · simp [old, show idx < s.nodes.length by omega]
    · simp [old]
  properties := later.properties.trans earlier.properties

theorem Grows.congr (grows : Grows s before) (nodes : after.nodes = s.nodes)
    (terms : after.termToNode = s.termToNode)
    (properties : after.functionProperties = s.functionProperties) : Grows after before where
  nodes := by rw [nodes]; exact grows.nodes
  terms := by rw [terms]; exact grows.terms
  properties := properties.trans grows.properties

theorem Restores.step (restores : s.Restores saved)
    (context : after.contextStack = s.contextStack)
    (uf : ∀ saved, s.uf.Restores saved → after.uf.Restores saved)
    (sig : ∀ saved, s.sig.Restores saved → after.sig.Restores saved)
    (uses : ∀ saved, s.useList.Restores saved → after.useList.Restores saved)
    (edges : ∀ saved, s.proofForest.Restores saved → after.proofForest.Restores saved)
    (diseq : ∀ saved, s.diseq.Restores saved → after.diseq.Restores saved)
    (grows : ∀ before, Grows s before → Grows after before) : after.Restores saved where
  context := context.trans restores.context
  uf := uf _ restores.uf
  sig := sig _ restores.sig
  uses := uses _ restores.uses
  edges := edges _ restores.edges
  diseq := diseq _ restores.diseq
  grows := by
    have chain := pairwise_cons.mp restores.grows
    exact pairwise_cons.mpr ⟨fun before mem => grows _ (chain.1 before mem), chain.2⟩

theorem Restores.sameClasses {uf : UnionFind} (restores : s.Restores saved)
    (same : s.uf.SameClasses uf) (pending : List (Nat × Nat × MergeReason))
    (cache : List ((Nat × Nat) × List Nat)) :
    ({ s with uf := uf, pending := pending, explCache := cache } : EufSolver).Restores saved :=
  restores.step rfl same.restores (fun _ kept => kept) (fun _ kept => kept) (fun _ kept => kept)
    (fun _ kept => kept) fun _ grows => grows.congr rfl rfl rfl

theorem Restores.fewer (restores : s.Restores saved) :
    ∀ before ∈ saved, before.nodes.length ≤ s.nodes.length :=
  fun before mem => ((pairwise_cons.mp restores.grows).1 before mem).nodes.length_le

end EufSolver

open EufSolver

variable {s : EufSolver} {saved older : List EufSolver} {merges : List (Nat × Nat × Nat)}
  {log : List (Nat × Nat × MergeReason)} {a b : Nat} {reason : MergeReason}
  {rest : List (Nat × Nat × MergeReason)}

theorem Invariant.applyMerge_restores (inv : Invariant s merges log)
    (valid : s.diseq.Valid s.nodes.length s.root) (next : s.pending = (a, b, reason) :: rest)
    (restores : s.Restores saved) :
    (({ s with pending := rest } : EufSolver).applyMerge a b reason).Restores saved := by
  obtain ⟨-, -, skipped | ⟨winner, loser, unites⟩⟩ := inv.nextMerge next
  · obtain ⟨uf, same, state⟩ := skipped.state
    rw [state]
    exact restores.sameClasses same rest s.explCache
  · obtain ⟨uf, joined, state⟩ := unites.state
    have joined : s.uf.Joined uf s.nodes.length winner loser := joined
    have scanned := inv.scanned next unites.roots joined
    have compressed := @scanUsers_uf s.nodes.length s.functionProperties s.nodes
      (s.useList.lists loser) { uf := uf, sig := s.sig, buf := [] } joined.wellFormed
    rw [state]
    exact restores.step rfl
      (fun saved kept => compressed.restores saved (joined.restores saved kept))
      scanned.restores
      (fun _ kept => useListPush_restores _ _ kept)
      (fun _ kept => (kept.append _ _).append _ _)
      (fun _ kept => kept.merged valid unites.roots)
      fun _ grows => grows.congr rfl rfl rfl

/-- A state between two calls, or between two merges of one call. -/
structure Sound (s : EufSolver) (merges : List (Nat × Nat × Nat)) (saved : List EufSolver) :
    Prop where
  inv : ∃ log, Invariant s merges log
  diseq : s.diseq.Valid s.nodes.length s.root
  restores : s.Restores saved

theorem Invariant.applyMerge_diseq (inv : Invariant s merges log)
    (valid : s.diseq.Valid s.nodes.length s.root) (next : s.pending = (a, b, reason) :: rest) :
    let after := ({ s with pending := rest } : EufSolver).applyMerge a b reason
    after.diseq.Valid after.nodes.length after.root := by
  obtain ⟨insideA, insideB, skipped | ⟨winner, loser, unites⟩⟩ := inv.nextMerge next
  · obtain ⟨uf, same, state⟩ := skipped.state
    have roots : uf.findNoCompress = s.root := funext same.find
    rw [state]
    show s.diseq.Valid s.nodes.length uf.findNoCompress
    rw [roots]
    exact valid
  · obtain ⟨uf, joined, state⟩ := unites.state
    have joined : s.uf.Joined uf s.nodes.length winner loser := joined
    have scanned := inv.scanned next unites.roots joined
    have insideWinner : winner < s.nodes.length := by
      rcases unites.roots with ⟨rfl, _⟩ | ⟨rfl, _⟩
      · exact inv.uf.find_lt insideA
      · exact inv.uf.find_lt insideB
    rw [state]
    refine DiseqIndex.Valid.merged valid unites.roots insideWinner fun x => ?_
    exact (scanned.find x).trans (joined.find x)

theorem Sound.applyMerge (sound : Sound s merges saved)
    (next : s.pending = (a, b, reason) :: rest) :
    Sound (({ s with pending := rest } : EufSolver).applyMerge a b reason) merges saved := by
  obtain ⟨log, inv⟩ := sound.inv
  exact {
    inv := inv.applyMerge next
    diseq := inv.applyMerge_diseq sound.diseq next
    restores := inv.applyMerge_restores sound.diseq next sound.restores }

theorem Sound.propagate (sound : Sound s merges saved) :
    s.propagate.pending = [] ∧ Sound s.propagate merges saved := by
  obtain ⟨log, inv⟩ := sound.inv
  refine ⟨inv.propagate.1, ?_⟩
  exact @propagateLoop_run (Sound · merges saved)
    (fun s a b reason rest sound next => sound.applyMerge next) s.propagateFuel s sound

theorem SigTables.Valid.congr {tables other : SigTables} {properties : Nat → FunctionProperties}
    {nodes : List ENode} {image : Nat → Nat} (same : other.data = tables.data)
    (valid : tables.Valid properties nodes image) : other.Valid properties nodes image := by
  obtain ⟨sigTable, rest⟩ := Prod.mk.inj same
  obtain ⟨nodeSigKey, fingerprints⟩ := Prod.mk.inj rest
  refine ⟨?_, ?_, ?_⟩
  · rw [sigTable, nodeSigKey]
    exact valid.registered
  · rw [nodeSigKey]
    exact valid.fits
  · rw [sigTable, fingerprints]
    exact valid.prefilter

section

variable {after before : EufSolver}

theorem Invariant.core (same : SameCore after before) (inv : Invariant before merges log) :
    Invariant after merges log := by
  have table : after.sig.sigTable = before.sig.sigTable := (Prod.mk.inj same.sig).1
  exact {
    uf := same.nodes ▸ same.uf inv.uf
    terms := by
      rw [same.terms, same.nodes]
      exact inv.terms
    args := by
      rw [same.nodes]
      exact inv.args
    uses := by
      rw [same.nodes, same.uses, same.root]
      exact inv.uses
    useRange := by
      rw [same.nodes, same.uses]
      exact inv.useRange
    sig := by
      rw [same.properties, same.nodes, same.root]
      exact inv.sig.congr same.sig
    represented := by
      intro user node here app
      rw [same.nodes] at here
      rw [same.properties, same.root, same.pending, table]
      exact inv.represented user node here app
    merged := by
      rw [same.root, same.pending]
      exact inv.merged
    scheduled := by
      rw [same.properties, same.nodes, same.root, same.pending]
      exact inv.scheduled
    classes := by
      rw [same.root]
      exact inv.classes
    forest := inv.forest
    supported := by
      rw [same.properties, same.nodes]
      exact inv.supported
    edges := by
      rw [same.edges]
      exact inv.edges
    edgeRange := by
      rw [same.nodes, same.edges]
      exact inv.edgeRange }

theorem EufSolver.SameCore.diseqValid (same : SameCore after before)
    (valid : before.diseq.Valid before.nodes.length before.root) :
    after.diseq.Valid after.nodes.length after.root := by
  rw [same.nodes, same.root]
  refine {
    inside := by
      rw [same.diseqs]
      exact valid.inside
    pairs := by
      rw [same.diseqs]
      exact valid.pairs
    watched := by
      rw [same.diseqs, same.watch]
      exact valid.watched
    watchRange := by
      rw [same.watch]
      exact valid.watchRange
    counts := by
      rw [same.diseqs, same.counts]
      exact valid.counts
    stamps := same.stamps
    conflict := by
      rw [same.diseqs, same.conflict]
      exact valid.conflict }

theorem EufSolver.SameCore.sameClasses {uf : UnionFind} (same : s.uf.SameClasses uf)
    (stamps : ∀ idx, s.diseq.diseqStamp idx ≤ s.diseq.diseqStampGen)
    (cache : List ((Nat × Nat) × List Nat)) :
    SameCore { s with uf := uf, explCache := cache } s where
  nodes := rfl
  terms := rfl
  properties := rfl
  uf := same.wellFormed _
  root := funext same.find
  sig := rfl
  uses := rfl
  edges := rfl
  diseqs := rfl
  counts := rfl
  watch := rfl
  conflict := rfl
  stamps := stamps
  pending := rfl

end

theorem Sound.sameClasses {uf : UnionFind} (sound : Sound s merges saved)
    (same : s.uf.SameClasses uf) (cache : List ((Nat × Nat) × List Nat)) :
    Sound { s with uf := uf, explCache := cache } merges saved := by
  have core := SameCore.sameClasses same sound.diseq.stamps cache
  obtain ⟨log, inv⟩ := sound.inv
  exact ⟨⟨log, inv.core core⟩, core.diseqValid sound.diseq,
    sound.restores.sameClasses same s.pending cache⟩

theorem Sound.assertDiseq (sound : Sound s merges saved) (term : Nat) (insideA : a < s.nodes.length)
    (insideB : b < s.nodes.length) : Sound (s.assertDiseq a b term) merges saved := by
  obtain ⟨log, inv⟩ := sound.inv
  exact {
    inv := ⟨log, { inv with }⟩
    diseq := sound.diseq.assertDiseq term insideA insideB fun x lies => inv.uf.find_lt lies
    restores := sound.restores.step rfl (fun _ kept => kept) (fun _ kept => kept)
      (fun _ kept => kept) (fun _ kept => kept) (fun _ kept => kept.assertDiseq ..)
      fun _ grows => grows.congr rfl rfl rfl }

theorem Sound.push (sound : Sound s merges saved) : Sound s.push merges (s :: saved) := by
  obtain ⟨log, inv⟩ := sound.inv
  have own : Grows s.push s := by
    refine ⟨prefix_rfl, fun term => ?_, rfl⟩
    show (s.termToNode term).filter _ = s.termToNode term
    cases found : s.termToNode term with
    | none => rfl
    | some idx => simp [Option.filter, inv.terms term idx found]
  have chain := sound.restores.grows
  exact {
    inv := ⟨log, { inv with
      uf := { inv.uf with }
      sig := { inv.sig with } }⟩
    diseq := { sound.diseq with }
    restores := {
      context := congrArg _ sound.restores.context
      uf := sound.restores.uf.push
      sig := sound.restores.sig.mark fun node outside => inv.sig.unregistered outside
      uses := sound.restores.uses.mark inv.useRange
      edges := sound.restores.edges.mark inv.edgeRange
      diseq := sound.restores.diseq.mark sound.diseq
      grows := by
        refine pairwise_cons.mpr ⟨fun before mem => ?_, chain⟩
        rcases mem_cons.mp mem with rfl | old
        · exact own
        · exact own.trans ((pairwise_cons.mp chain).1 before old) } }

theorem EufSolver.Grows.extend {after before : EufSolver} {node : ENode} (grows : Grows s before)
    (fresh : s.termToNode node.term = none) (nodes : after.nodes = s.nodes ++ [node])
    (terms : after.termToNode = update s.termToNode node.term (some s.nodes.length))
    (properties : after.functionProperties = s.functionProperties) : Grows after before where
  nodes := by
    rw [nodes]
    exact grows.nodes.trans (prefix_append _ _)
  terms := by
    intro term
    rw [terms, update_apply]
    have shorter := grows.nodes.length_le
    split
    · rename_i same
      -- The new node lies beyond the older ones.
      rw [← grows.terms term, same, fresh]
      simp only [filter_none, filter_eq_none_iff, some.injEq, decide_eq_true_eq]
      omega
    · exact grows.terms term
  properties := properties.trans grows.properties

theorem EufSolver.Restores.extend {after : EufSolver} {node : ENode} {uf : UnionFind}
    (restores : s.Restores saved) (fresh : s.termToNode node.term = none)
    (nodes : after.nodes = s.nodes ++ [node])
    (terms : after.termToNode = update s.termToNode node.term (some s.nodes.length))
    (properties : after.functionProperties = s.functionProperties)
    (context : after.contextStack = s.contextStack) (same : s.uf.SameClasses uf)
    (uf_ : after.uf = uf) (sig : ∀ saved, s.sig.Restores saved → after.sig.Restores saved)
    (uses : ∀ saved, (s.useList.grow s.nodes.length).Restores saved → after.useList.Restores saved)
    (edges : after.proofForest = s.proofForest.grow s.nodes.length)
    (diseq : after.diseq = s.diseq) : after.Restores saved where
  context := context.trans restores.context
  uf := uf_ ▸ same.restores _ restores.uf
  sig := sig _ restores.sig
  uses := by
    refine uses _ (restores.uses.grow fun scope mem => ?_)
    obtain ⟨before, listed, rfl⟩ := mem_map.mp mem
    exact restores.fewer before listed
  edges := by
    rw [edges]
    refine restores.edges.grow fun scope mem => ?_
    obtain ⟨before, listed, rfl⟩ := mem_map.mp mem
    exact restores.fewer before listed
  diseq := diseq ▸ restores.diseq
  grows := by
    have chain := pairwise_cons.mp restores.grows
    exact pairwise_cons.mpr ⟨fun before mem =>
      (chain.1 before mem).extend fresh nodes terms properties, chain.2⟩

theorem Sound.intern (sound : Sound s merges saved) (settled : s.pending = []) (term : Nat) :
    Sound (s.intern term).2 merges saved := by
  obtain ⟨log, inv⟩ := sound.inv
  have inv' := inv.intern settled term
  unfold EufSolver.intern at inv' ⊢
  split at inv'
  · exact sound
  · rename_i fresh
    have same := UnionFind.add_sameClasses inv.uf
    have roots : s.uf.add.findNoCompress = s.root := funext same.find
    have unchanged : s.sig.setNodeSigKey s.nodes.length none = s.sig := by
      have key : update s.sig.nodeSigKey s.nodes.length none = s.sig.nodeSigKey :=
        update_eq_self_iff.mpr (inv.sig.unregistered (Nat.le_refl _)).symm
      rw [SigTables.setNodeSigKey, key]
    refine ⟨⟨log, inv'⟩, ?_, ?_⟩
    · show s.diseq.Valid (s.nodes ++ [ENode.leaf term]).length s.uf.add.findNoCompress
      rw [roots]
      exact sound.diseq.grow (by simp)
    · refine sound.restores.extend fresh rfl rfl rfl rfl same rfl ?_ (fun _ kept => kept) rfl rfl
      intro saved kept
      show (s.sig.setNodeSigKey s.nodes.length none).Restores saved
      rw [unchanged]
      exact kept

theorem Invariant.withApp_diseq (_inv : Invariant s merges log) (term func : Nat)
    (flattened : List Nat) : (withApp s term func flattened).diseq = s.diseq := by
  have kept : ∀ (args : List Nat) (s : EufSolver) (idx : Nat),
      (s.registerUses idx args).diseq = s.diseq := by
    intro args
    induction args with
    | nil => exact fun _ _ => rfl
    | cons arg rest ih => exact fun s idx => (ih _ idx).trans rfl
  exact kept _ _ _

theorem Invariant.withApp_restores (inv : Invariant s merges log) (restores : s.Restores saved)
    {term : Nat} (func : Nat) {flattened : List Nat} (fresh : s.termToNode term = none)
    (lies : ∀ arg ∈ flattened, arg < s.nodes.length) {sig : SigTables}
    (kept : ∀ saved, s.sig.Restores saved → sig.Restores saved)
    (pending : List (Nat × Nat × MergeReason)) (cache : List ((Nat × Nat) × List Nat)) :
    ({ withApp s term func flattened with
      sig := sig, pending := pending, explCache := cache } : EufSolver).Restores saved := by
  obtain ⟨_, same⟩ := canonicalizeArgs_spec (s.functionProperties func) flattened inv.uf
  have wf := same.wellFormed _ inv.uf
  have added := UnionFind.add_sameClasses wf
  obtain ⟨later, state, _, _, _, uses⟩ := @registerUses_spec (s.nodes.length + 1)
    s.nodes.length flattened
    (({ s with uf := (canonicalizeArgs (s.functionProperties func) s.uf flattened).2 } :
      EufSolver).addNode (.app func flattened term)
        (if s.sig.sigTable (func, (canonicalizeArgs (s.functionProperties func) s.uf
          flattened).1) = none then
            some (func, (canonicalizeArgs (s.functionProperties func) s.uf flattened).1) else none))
    wf.add lies (fun arg bound => by
      show (canonicalizeArgs (s.functionProperties func) s.uf
        flattened).2.add.findNoCompress arg < _
      rw [added.find, same.find]
      exact inv.uf.find_lt bound)
  unfold withApp
  dsimp only
  rw [state]
  exact restores.extend fresh rfl rfl rfl rfl ((same.trans added).trans later) rfl kept
    uses rfl rfl

theorem Sound.withApp_valid (sound : Sound s merges saved) (term func : Nat)
    {flattened : List Nat} (lies : ∀ arg ∈ flattened, arg < s.nodes.length) :
    (withApp s term func flattened).diseq.Valid (withApp s term func flattened).nodes.length
      (withApp s term func flattened).root := by
  obtain ⟨log, inv⟩ := sound.inv
  obtain ⟨extended, _⟩ := inv.withApp_extended term func lies
  rw [extended.root, extended.nodes, inv.withApp_diseq]
  exact sound.diseq.grow (by simp)

theorem Sound.congruentApp (sound : Sound s merges saved) (settled : s.pending = [])
    {term func existing : Nat} {flattened : List Nat} (proper : func < noFunc)
    (lies : ∀ arg ∈ flattened, arg < s.nodes.length) (fresh : s.termToNode term = none)
    (taken : s.sig.sigTable (signature s.functionProperties s.root (.app func flattened term)) =
      some existing) : Sound (withCongruence s term func flattened existing) merges saved := by
  obtain ⟨log, inv⟩ := sound.inv
  obtain ⟨inv', sig⟩ := inv.congruentApp settled term func proper lies taken
  have table : ∀ saved, s.sig.Restores saved →
      (withApp s term func flattened).sig.Restores saved := fun saved kept => sig.symm ▸ kept
  exact ⟨⟨log, inv'⟩, sound.withApp_valid term func lies,
    inv.withApp_restores sound.restores func fresh lies table _ _⟩

theorem Sound.publishedApp (sound : Sound s merges saved) (settled : s.pending = [])
    {term func : Nat} {flattened : List Nat} (proper : func < noFunc)
    (lies : ∀ arg ∈ flattened, arg < s.nodes.length) (fresh : s.termToNode term = none)
    (free : s.sig.sigTable (signature s.functionProperties s.root (.app func flattened term)) =
      none) : (withSignature s term func flattened).pending = [] ∧
        Sound (withSignature s term func flattened) merges saved := by
  obtain ⟨log, inv⟩ := sound.inv
  obtain ⟨inv', sig, pending⟩ := inv.publishedApp settled term func proper lies free
  have table : ∀ saved, s.sig.Restores saved →
      (withSignature s term func flattened).sig.Restores saved := by
    intro saved kept
    rw [sig]
    refine (kept.updateSigEntry ?_ free).pushFingerprint _ _
    exact fun key noted => (inv.sig.registered key _).mpr noted
  exact ⟨pending, ⟨log, inv'⟩, sound.withApp_valid term func lies,
    inv.withApp_restores sound.restores func fresh lies table _ _⟩

theorem Sound.scheduledMerge (sound : Sound s merges saved) (settled : s.pending = [])
    (term : Nat) (insideA : a < s.nodes.length) (insideB : b < s.nodes.length) :
    Sound { s with explCache := [], pending := (a, b, .assertion term) :: s.pending }
      ((a, b, term) :: merges) saved := by
  obtain ⟨log, inv⟩ := sound.inv
  exact ⟨⟨log, inv.scheduledMerge settled term insideA insideB⟩, sound.diseq,
    sound.restores.sameClasses (.refl s.uf) _ []⟩

theorem Sound.pop {before : EufSolver} {older : List EufSolver} {outer : List (Nat × Nat × Nat)}
    (sound : Sound s merges (before :: older)) (entered : Sound before outer older)
    (settled : before.pending = []) :
    SameCore s.pop before ∧ s.pop.explCache = [] ∧ s.pop.Restores older := by
  obtain ⟨log, inv⟩ := sound.inv
  obtain ⟨log', inv'⟩ := entered.inv
  obtain ⟨context, uf, sig, uses, edges, diseq, grows⟩ := sound.restores
  have chain := pairwise_cons.mp grows
  have grown := chain.1 before (mem_cons_self ..)
  obtain ⟨parents, ranks, size, uf'⟩ := uf.pop
  obtain ⟨sigData, sig'⟩ := sig.rewind
  obtain ⟨useLists, uses'⟩ := uses.rewind
  obtain ⟨edgeLists, edges'⟩ := edges.rewind
  obtain ⟨diseqs, counts, watch, conflict, gen, stamps, diseq'⟩ := diseq.rewind
  have enough : before.nodes.length ≤ s.uf.pop.size := by
    have fewer := grown.nodes.length_le
    have room := inv.uf.size
    omega
  have wf : before.uf.WellFormed before.nodes.length →
      s.uf.pop.WellFormed before.nodes.length := by
    intro wf
    refine ⟨enough, ?_, ?_, ?_, ?_⟩
    · rw [parents]
      exact wf.inside
    · rw [parents]
      exact wf.outside
    · rw [ranks]
      exact wf.unranked
    · rw [parents, ranks]
      exact wf.climbs
  have nodes : s.nodes.take before.nodes.length = before.nodes :=
    (prefix_iff_eq_take.mp grown.nodes).symm
  have popped : s.pop = { s with
      contextStack := older.map fun before => (before.nodes.length, before.diseq.diseqs.length)
      pending := []
      diseq := s.diseq.rewind before.nodes.length before.diseq.diseqs.length
      nodes := before.nodes
      uf := s.uf.pop
      useList := s.useList.rewind before.nodes.length
      proofForest := s.proofForest.rewind before.nodes.length
      explCache := []
      termToNode := before.termToNode
      sig := s.sig.rewind before.nodes.length } := by
    have terms : (fun term => (s.termToNode term).filter fun idx => idx < before.nodes.length) =
        before.termToNode := funext grown.terms
    unfold EufSolver.pop
    rw [context]
    simp only [map_cons, nodes, terms]
  rw [popped]
  refine ⟨?_, rfl, ?_⟩
  · exact {
      nodes := rfl
      terms := rfl
      properties := grown.properties
      uf := wf
      root := funext (UnionFind.find_congr inv'.uf (wf inv'.uf) parents)
      sig := sigData
      uses := useLists
      edges := edgeLists
      diseqs := diseqs
      counts := counts
      watch := watch
      conflict := conflict
      stamps := by
        intro idx
        have bound := sound.diseq.stamps idx
        have shrunk := stamps idx
        show (s.diseq.rewind _ _).diseqStamp idx ≤ (s.diseq.rewind _ _).diseqStampGen
        rw [gen]
        omega
      pending := settled.symm }
  · exact {
      context := rfl
      uf := uf'
      sig := sig'
      uses := uses'
      edges := edges'
      diseq := diseq'
      grows := by
        have outer := pairwise_cons.mp chain.2
        refine pairwise_cons.mpr ⟨fun old mem => ?_, outer.2⟩
        exact (outer.1 old mem).congr rfl rfl grown.properties }

theorem Sound.popped {before : EufSolver} {older : List EufSolver}
    {outer : List (Nat × Nat × Nat)} (sound : Sound s merges (before :: older))
    (entered : Sound before outer older) (settled : before.pending = []) :
    s.pop.pending = [] ∧ Sound s.pop outer older := by
  obtain ⟨core, _, kept⟩ := sound.pop entered settled
  obtain ⟨log, inv⟩ := entered.inv
  exact ⟨core.pending.trans settled, ⟨log, inv.core core⟩, core.diseqValid entered.diseq, kept⟩

end Nixie.Euf
