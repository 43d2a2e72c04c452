import Nixie.Euf.Invariant

/-! Interning terms and asserting equalities keep the invariant of the equality solver. -/

namespace Nixie.Euf

open UndoTrail List Function

variable {nodes : List ENode}

theorem getElem?_extend {node other : ENode} {idx : Nat}
    (here : nodes[idx]? = some other) : (nodes ++ [node])[idx]? = some other := by
  rw [List.getElem?_append_left (List.getElem?_eq_some_iff.mp here).1]
  exact here

theorem getElem?_extend_cases {node other : ENode} {idx : Nat}
    (here : (nodes ++ [node])[idx]? = some other) :
    nodes[idx]? = some other ∨ (idx = nodes.length ∧ other = node) := by
  by_cases old : idx < nodes.length
  · rw [getElem?_append_left old] at here
    exact .inl here
  · have bound := (List.getElem?_eq_some_iff.mp here).1
    rw [length_append, length_singleton] at bound
    have same : idx = nodes.length := by omega
    subst same
    rw [getElem?_append_right (le_refl _)] at here
    simp only [Nat.sub_self, getElem?_cons_zero, Option.some.injEq] at here
    exact .inr ⟨rfl, here.symm⟩

variable {properties : Nat → FunctionProperties}

theorem Supported.extend {merges : List (Nat × Nat × Nat)} (node : ENode) :
    ∀ {log : List (Nat × Nat × MergeReason)}, Supported properties nodes merges log →
      Supported properties (nodes ++ [node]) merges log := by
  intro log
  induction log with
  | nil => exact fun supported => supported
  | cons entry older ih =>
    obtain ⟨a, b, reason⟩ := entry
    rintro ⟨first, rest⟩
    refine ⟨?_, ih rest⟩
    cases reason with
    | assertion term => exact first
    | congruence x y =>
      obtain ⟨same, same', left, right, arranged, hereX, hereY, others⟩ := first
      exact ⟨same, same', left, right, arranged, getElem?_extend hereX, getElem?_extend hereY,
        others⟩

theorem Supported.more {merges larger : List (Nat × Nat × Nat)}
    (included : ∀ entry ∈ merges, entry ∈ larger) :
    ∀ {log : List (Nat × Nat × MergeReason)}, Supported properties nodes merges log →
      Supported properties nodes larger log := by
  intro log
  induction log with
  | nil => exact fun supported => supported
  | cons entry older ih =>
    obtain ⟨a, b, reason⟩ := entry
    rintro ⟨first, rest⟩
    refine ⟨?_, ih rest⟩
    cases reason with
    | assertion term => exact included _ first
    | congruence x y => exact first

theorem SigTables.Valid.extend {tables : SigTables}
    {image : Nat → Nat} (valid : tables.Valid properties nodes image)
    (node : ENode) : tables.Valid properties (nodes ++ [node]) image where
  registered := valid.registered
  fits := by
    intro user key found
    obtain ⟨other, here, app, func, same⟩ := valid.fits user key found
    exact ⟨other, getElem?_extend here, app, func, same⟩
  prefilter := valid.prefilter

theorem SigTables.Valid.unregistered {tables : SigTables} {image : Nat → Nat}
    (valid : tables.Valid properties nodes image) {idx : Nat} (outside : nodes.length ≤ idx) :
    tables.nodeSigKey idx = none := by
  cases found : tables.nodeSigKey idx with
  | none => rfl
  | some key =>
    obtain ⟨node, here, _⟩ := valid.fits idx key found
    have bound := (List.getElem?_eq_some_iff.mp here).1
    omega

variable {s : EufSolver} {merges : List (Nat × Nat × Nat)}
  {log : List (Nat × Nat × MergeReason)}

/-- A state whose only new node is registered where it has to be. -/
structure Extended (s after : EufSolver) (node : ENode) : Prop where
  nodes : after.nodes = s.nodes ++ [node]
  uf : after.uf.WellFormed (s.nodes.length + 1)
  root : after.root = s.root
  terms : after.termToNode = update s.termToNode node.term (some s.nodes.length)
  properties : after.functionProperties = s.functionProperties
  uses : ∀ rep user, user ∈ s.useList.lists rep → user ∈ after.useList.lists rep
  newUses : node.isApp = true → ∀ arg ∈ node.args, s.nodes.length ∈ after.useList.lists (s.root arg)
  useRange : ∀ rep, s.nodes.length < rep → after.useList.lists rep = []
  edges : after.proofForest.lists = s.proofForest.lists

theorem Invariant.extend {after : EufSolver} {node : ENode} (inv : Invariant s merges log)
    (settled : s.pending = []) (extended : Extended s after node)
    (args : ∀ arg ∈ node.args, arg < s.nodes.length)
    (sig : after.sig.Valid s.functionProperties (s.nodes ++ [node]) s.root)
    (keeps : ∀ key holder, s.sig.sigTable key = some holder → after.sig.sigTable key = some holder)
    (represented : node.isApp = true → ∃ holder,
      after.sig.sigTable (signature s.functionProperties s.root node) = some holder ∧
        Linked s.root after.pending holder s.nodes.length)
    (scheduled : ∀ entry ∈ after.pending,
      Justified s.functionProperties (s.nodes ++ [node]) s.root merges entry) :
    Invariant after merges log where
  uf := by
    rw [extended.nodes, length_append, length_singleton]
    exact extended.uf
  terms := by
    intro term idx found
    rw [extended.terms, update_apply] at found
    rw [extended.nodes, length_append, length_singleton]
    split at found
    · cases found
      omega
    · have := inv.terms term idx found
      omega
  args := by
    intro other mem arg lies
    rw [extended.nodes] at mem
    rw [extended.nodes, length_append, length_singleton]
    rcases mem_append.mp mem with old | new
    · have := inv.args other old arg lies
      omega
    · rw [mem_singleton.mp new] at lies
      have := args arg lies
      omega
  uses := by
    intro user other here app arg mem
    rw [extended.nodes] at here
    rw [extended.root]
    rcases getElem?_extend_cases here with old | ⟨rfl, rfl⟩
    · exact extended.uses _ _ (inv.uses user other old app arg mem)
    · exact extended.newUses app arg mem
  useRange := by
    intro rep outside
    rw [extended.nodes, length_append, length_singleton] at outside
    exact extended.useRange rep outside
  sig := by
    rw [extended.nodes, extended.root, extended.properties]
    exact sig
  represented := by
    intro user other here app
    rw [extended.nodes] at here
    rw [extended.root, extended.properties]
    rcases getElem?_extend_cases here with old | ⟨rfl, rfl⟩
    · obtain ⟨holder, entry, linked⟩ := inv.represented user other old app
      rw [settled] at linked
      exact ⟨holder, keeps _ _ entry, .of_eq linked.settled⟩
    · exact represented app
  merged := by
    intro entry mem
    have linked := inv.merged entry mem
    rw [settled] at linked
    rw [extended.root]
    exact .of_eq linked.settled
  scheduled := by
    rw [extended.nodes, extended.root, extended.properties]
    exact scheduled
  classes := by
    rw [extended.root]
    exact inv.classes
  forest := inv.forest
  supported := by
    rw [extended.nodes, extended.properties]
    exact inv.supported.extend node
  edges := by
    rw [extended.edges]
    exact inv.edges
  edgeRange := by
    intro idx outside
    rw [extended.nodes, length_append, length_singleton] at outside
    rw [extended.edges]
    exact inv.edgeRange idx (by omega)

theorem grow_lists {α : Type} {table : AppendTable α} {index : Nat}
    (empty : table.lists index = []) : (table.grow index).lists = table.lists := by
  rw [AppendTable.grow, ← empty]
  exact update_eq_self index table.lists

theorem Invariant.addNode_extended (inv : Invariant s merges log) (node : ENode)
    (key : Option SigKey) {uf : UnionFind} {sig : SigTables} (same : s.uf.SameClasses uf)
    (unused : node.isApp = true → node.args = []) :
    Extended s (({ s with uf := uf, sig := sig } : EufSolver).addNode node key) node := by
  have wf := same.wellFormed _ inv.uf
  have added := UnionFind.add_sameClasses wf
  exact {
    nodes := rfl
    uf := wf.add
    root := funext fun x => (added.find x).trans (same.find x)
    terms := rfl
    properties := rfl
    uses := by
      intro rep user mem
      show user ∈ (s.useList.grow s.nodes.length).lists rep
      rw [grow_lists (inv.useRange _ (le_refl _))]
      exact mem
    newUses := by
      intro app arg mem
      rw [unused app] at mem
      cases mem
    useRange := by
      intro rep outside
      show (s.useList.grow s.nodes.length).lists rep = []
      rw [grow_lists (inv.useRange _ (le_refl _))]
      exact inv.useRange rep (Nat.le_of_lt outside)
    edges := grow_lists (inv.edgeRange _ (le_refl _)) }

theorem Invariant.intern (inv : Invariant s merges log) (settled : s.pending = [])
    (term : Nat) : Invariant (s.intern term).2 merges log := by
  unfold EufSolver.intern
  split
  · exact inv
  · have leaf : (ENode.leaf term).isApp = false := by simp [ENode.leaf, ENode.isApp]
    have fresh : update s.sig.nodeSigKey s.nodes.length none = s.sig.nodeSigKey :=
      update_eq_self_iff.mpr (inv.sig.unregistered (le_refl _)).symm
    have unchanged : s.sig.setNodeSigKey s.nodes.length none = s.sig := by
      rw [SigTables.setNodeSigKey, fresh]
    have extended := @Invariant.addNode_extended s merges log inv (ENode.leaf term) none s.uf s.sig
      (UnionFind.SameClasses.refl s.uf) (by simp [leaf])
    refine inv.extend settled extended (by simp [ENode.leaf]) ?_ ?_ (by simp [leaf]) ?_
    · show (s.sig.setNodeSigKey s.nodes.length none).Valid _ _ _
      rw [unchanged]
      exact inv.sig.extend _
    · intro key holder entry
      exact entry
    · intro entry mem
      have mem : entry ∈ s.pending := mem
      rw [settled] at mem
      cases mem

theorem registerUses_spec {count idx : Nat} :
    ∀ (args : List Nat) {s : EufSolver}, s.uf.WellFormed count →
      (∀ arg ∈ args, arg < idx) → (∀ arg, arg < idx → s.root arg < idx) →
      s.uf.SameClasses (s.registerUses idx args).uf ∧ (s.registerUses idx args) = { s with
          uf := (s.registerUses idx args).uf, useList := (s.registerUses idx args).useList } ∧
        (∀ rep user, user ∈ s.useList.lists rep →
          user ∈ (s.registerUses idx args).useList.lists rep) ∧
        (∀ arg ∈ args, idx ∈ (s.registerUses idx args).useList.lists (s.root arg)) ∧
        (∀ rep, idx ≤ rep → (s.registerUses idx args).useList.lists rep = s.useList.lists rep) ∧
        (∀ saved, s.useList.Restores saved →
          (s.registerUses idx args).useList.Restores saved) := by
  intro args
  induction args with
  | nil => exact fun _ _ _ => ⟨.refl _, rfl, fun _ _ mem => mem, by simp, fun _ _ => rfl,
      fun _ kept => kept⟩
  | cons arg rest ih =>
    intro s wf lies roots
    have same := UnionFind.find_sameClasses wf arg
    have roots' : ∀ other, other < idx → (s.uf.find arg).2.findNoCompress other < idx := by
      intro other bound
      rw [same.find]
      exact roots other bound
    obtain ⟨later, state, keeps, listed, range, restores⟩ :=
      @ih { s with uf := (s.uf.find arg).2, useList := s.useList.append (s.uf.find arg).1 idx }
        (same.wellFormed _ wf) (fun other mem => lies other (mem_cons_of_mem _ mem))
        roots'
    rw [EufSolver.registerUses]
    refine ⟨same.trans later, by rw [state], ?_, ?_, ?_, ?_⟩
    · intro rep user mem
      apply keeps
      by_cases target : rep = s.root arg
      · subst target
        simp [AppendTable.append, mem]
      · simp [AppendTable.append, update_of_ne target, mem]
    · intro other mem
      rcases mem_cons.mp mem with rfl | old
      · apply keeps
        simp [AppendTable.append]
      · have := listed other old
        rw [EufSolver.root, same.find] at this
        exact this
    · intro rep outside
      rw [range rep outside]
      have ne : rep ≠ s.root arg := by
        have := roots arg (lies arg (mem_cons_self ..))
        omega
      simp [AppendTable.append, update_of_ne ne]
    · exact fun saved kept => restores saved (kept.append _ _)

theorem Invariant.flattenArgs_lt (inv : Invariant s merges log) {func : Nat} {args : List Nat}
    (lies : ∀ arg ∈ args, arg < s.nodes.length) :
    ∀ arg ∈ s.flattenArgs func args, arg < s.nodes.length := by
  unfold EufSolver.flattenArgs
  split
  · intro arg mem
    obtain ⟨outer, listed, inner⟩ := mem_flatMap.mp mem
    split at inner
    · rename_i node here
      split at inner
      · exact inv.args node (mem_of_getElem? here) arg inner
      · rw [mem_singleton.mp inner]
        exact lies outer listed
    · rw [mem_singleton.mp inner]
      exact lies outer listed
  · exact lies

/-- The state in which a new application has been created and its uses registered. -/
def withApp (s : EufSolver) (term func : Nat) (flattened : List Nat) : EufSolver :=
  let canon := canonicalizeArgs (s.functionProperties func) s.uf flattened
  let key := (func, canon.1)
  (({ s with uf := canon.2 } : EufSolver).addNode (.app func flattened term)
    (if s.sig.sigTable key = none then some key else none)).registerUses s.nodes.length flattened

theorem Invariant.withApp_extended (inv : Invariant s merges log) (term func : Nat)
    {flattened : List Nat} (lies : ∀ arg ∈ flattened, arg < s.nodes.length) :
    Extended s (withApp s term func flattened) (.app func flattened term) ∧
      (withApp s term func flattened).sig = s.sig.setNodeSigKey s.nodes.length
        (if s.sig.sigTable (signature s.functionProperties s.root (.app func flattened term)) = none
          then some (signature s.functionProperties s.root (.app func flattened term)) else none) ∧
      (withApp s term func flattened).pending = s.pending := by
  obtain ⟨canonical, same⟩ := canonicalizeArgs_spec (s.functionProperties func) flattened inv.uf
  have key : (func, (canonicalizeArgs (s.functionProperties func) s.uf flattened).1) =
      signature s.functionProperties s.root (.app func flattened term) := by
    rw [canonical]
    rfl
  have wf := same.wellFormed _ inv.uf
  have added := UnionFind.add_sameClasses wf
  have rootEq : ∀ x, (canonicalizeArgs (s.functionProperties func) s.uf
      flattened).2.add.findNoCompress x = s.root x :=
    fun x => (added.find x).trans (same.find x)
  obtain ⟨later, state, keeps, listed, range, _⟩ := @registerUses_spec (s.nodes.length + 1)
    s.nodes.length flattened
    (({ s with uf := (canonicalizeArgs (s.functionProperties func) s.uf flattened).2 } :
      EufSolver).addNode (.app func flattened term)
        (if s.sig.sigTable (func, (canonicalizeArgs (s.functionProperties func) s.uf
          flattened).1) = none then
            some (func, (canonicalizeArgs (s.functionProperties func) s.uf flattened).1) else none))
    wf.add lies (by
      intro arg bound
      show (canonicalizeArgs (s.functionProperties func) s.uf
        flattened).2.add.findNoCompress arg < _
      rw [rootEq]
      exact inv.uf.find_lt bound)
  have grown : (s.useList.grow s.nodes.length).lists = s.useList.lists :=
    grow_lists (inv.useRange _ (le_refl _))
  unfold withApp
  dsimp only
  refine ⟨?_, ?_, ?_⟩
  · refine {
      nodes := by rw [state]; rfl
      uf := later.wellFormed _ wf.add
      root := funext fun x => (later.find x).trans (rootEq x)
      terms := by rw [state]; rfl
      properties := by rw [state]; rfl
      uses := ?_
      newUses := ?_
      useRange := ?_
      edges := ?_ }
    · intro rep user mem
      apply keeps
      show user ∈ (s.useList.grow s.nodes.length).lists rep
      rw [grown]
      exact mem
    · intro _ arg mem
      have := listed arg mem
      have root_ : (({ s with uf := (canonicalizeArgs (s.functionProperties func) s.uf
          flattened).2 } : EufSolver).addNode (.app func flattened term)
            (if s.sig.sigTable (func, (canonicalizeArgs (s.functionProperties func) s.uf
              flattened).1) = none then
                some (func, (canonicalizeArgs (s.functionProperties func) s.uf flattened).1)
              else none)).root arg = s.root arg := rootEq arg
      rw [root_] at this
      exact this
    · intro rep outside
      rw [range rep (Nat.le_of_lt outside)]
      show (s.useList.grow s.nodes.length).lists rep = []
      rw [grown]
      exact inv.useRange rep (Nat.le_of_lt outside)
    · rw [state]
      exact grow_lists (inv.edgeRange _ (le_refl _))
  · rw [state, ← key]
    rfl
  · rw [state]
    rfl

/-- The state in which the congruence of a new application is scheduled. -/
def withCongruence (s : EufSolver) (term func : Nat) (flattened : List Nat) (existing : Nat) :
    EufSolver :=
  { withApp s term func flattened with
    explCache := []
    pending := (s.nodes.length, existing, .congruence s.nodes.length existing) ::
      (withApp s term func flattened).pending }

/-- The state in which the signature of a new application is published. -/
def withSignature (s : EufSolver) (term func : Nat) (flattened : List Nat) : EufSolver :=
  { withApp s term func flattened with
    sig := (withApp s term func flattened).sig.insertSignature
      (signature s.functionProperties s.root (.app func flattened term)) s.nodes.length
      (fingerprint (signature s.functionProperties s.root (.app func flattened term))) }

theorem Invariant.internApp_cases (inv : Invariant s merges log) {term : Nat} (func : Nat)
    (args : List Nat) (fresh : s.termToNode term = none) :
    (∃ existing, s.sig.sigTable (signature s.functionProperties s.root
        (.app func (s.flattenArgs func args) term)) = some existing ∧
      (s.internApp term func args).2 =
        (withCongruence s term func (s.flattenArgs func args) existing).propagate) ∨
    (s.sig.sigTable (signature s.functionProperties s.root
        (.app func (s.flattenArgs func args) term)) = none ∧
      (s.internApp term func args).2 = withSignature s term func (s.flattenArgs func args)) := by
  obtain ⟨canonical, same⟩ :=
    canonicalizeArgs_spec (s.functionProperties func) (s.flattenArgs func args) inv.uf
  have key : (func, (canonicalizeArgs (s.functionProperties func) s.uf
      (s.flattenArgs func args)).1) =
        signature s.functionProperties s.root (.app func (s.flattenArgs func args) term) := by
    rw [canonical]
    rfl
  unfold EufSolver.internApp withCongruence withSignature withApp
  rw [fresh]
  simp only [inv.sig.lookup, key]
  cases s.sig.sigTable (signature s.functionProperties s.root
    (.app func (s.flattenArgs func args) term)) with
  | some existing => exact .inl ⟨existing, rfl, rfl⟩
  | none => exact .inr ⟨rfl, rfl⟩

theorem Invariant.congruentApp (inv : Invariant s merges log) (settled : s.pending = [])
    (term func : Nat) {flattened : List Nat} {existing : Nat} (proper : func < noFunc)
    (lies : ∀ arg ∈ flattened, arg < s.nodes.length)
    (taken : s.sig.sigTable (signature s.functionProperties s.root (.app func flattened term)) =
      some existing) :
    Invariant (withCongruence s term func flattened existing) merges log ∧
      (withApp s term func flattened).sig = s.sig := by
  obtain ⟨extended, sig, pending⟩ := inv.withApp_extended term func lies
  have app : (ENode.app func flattened term).isApp = true := decide_eq_true (Nat.ne_of_lt proper)
  -- The signature is taken: the table is unchanged.
  rw [taken] at sig
  have unchanged : s.sig.setNodeSigKey s.nodes.length none = s.sig := by
    rw [SigTables.setNodeSigKey]
    have same : update s.sig.nodeSigKey s.nodes.length none = s.sig.nodeSigKey :=
      update_eq_self_iff.mpr (inv.sig.unregistered (le_refl s.nodes.length)).symm
    rw [same]
  simp only [reduceCtorEq, if_false, unchanged] at sig
  refine ⟨inv.extend settled { extended with } lies ?_ ?_ ?_ ?_, sig⟩
  · show (withApp s term func flattened).sig.Valid _ _ _
    rw [sig]
    exact inv.sig.extend _
  · intro key holder entry
    show (withApp s term func flattened).sig.sigTable key = _
    rw [sig]
    exact entry
  · intro _
    refine ⟨existing, ?_, Linked.symm (Linked.of_mem (mem_cons_self ..))⟩
    show (withApp s term func flattened).sig.sigTable _ = _
    rw [sig]
    exact taken
  · intro entry mem
    have mem : entry ∈ (s.nodes.length, existing, MergeReason.congruence s.nodes.length existing) ::
          (withApp s term func flattened).pending := mem
    rw [pending, settled, mem_singleton] at mem
    subst mem
    refine ⟨rfl, rfl, ?_⟩
    obtain ⟨holder, here, app', func', same⟩ :=
      inv.sig.fits existing _ ((inv.sig.registered _ _).mp taken)
    refine ⟨.app func flattened term, holder, ?_, getElem?_extend here, app, app', ?_⟩
    · rw [getElem?_append_right (le_refl _)]
      simp
    · simp only [signature] at func' same ⊢
      rw [← func'] at same ⊢
      rw [canonicalOrder_map inv.uf.find_idem] at same
      rw [same]

theorem SigTables.updateSigEntry_fresh {tables : SigTables} {node : Nat} {key : SigKey}
    (fresh : tables.nodeSigKey node = none) :
    (tables.setNodeSigKey node (some key)).insertSig key node = tables.updateSigEntry node key := by
  rw [updateSigEntry, removeOldKey, fresh, insertSig_setNodeSigKey]

theorem Invariant.publishedApp (inv : Invariant s merges log) (settled : s.pending = [])
    (term func : Nat) {flattened : List Nat} (proper : func < noFunc)
    (lies : ∀ arg ∈ flattened, arg < s.nodes.length)
    (free : s.sig.sigTable (signature s.functionProperties s.root (.app func flattened term)) =
      none) :
    Invariant (withSignature s term func flattened) merges log ∧
      (withSignature s term func flattened).sig = (s.sig.updateSigEntry s.nodes.length
        (signature s.functionProperties s.root (.app func flattened term))).pushFingerprint
          (fingerprint (signature s.functionProperties s.root (.app func flattened term)))
          s.nodes.length ∧
      (withSignature s term func flattened).pending = [] := by
  obtain ⟨extended, sig, pending⟩ := inv.withApp_extended term func lies
  have app : (ENode.app func flattened term).isApp = true := decide_eq_true (Nat.ne_of_lt proper)
  rw [free, if_pos rfl] at sig
  have published : (withSignature s term func flattened).sig = (s.sig.updateSigEntry s.nodes.length
        (signature s.functionProperties s.root (.app func flattened term))).pushFingerprint
          (fingerprint (signature s.functionProperties s.root (.app func flattened term)))
          s.nodes.length := by
    rw [← SigTables.updateSigEntry_fresh (inv.sig.unregistered (le_refl s.nodes.length)), ← sig]
    rfl
  have table : (withSignature s term func flattened).sig.sigTable = update s.sig.sigTable
        (signature s.functionProperties s.root (.app func flattened term))
        (some s.nodes.length) := by
    show ((withApp s term func flattened).sig.insertSignature _ _ _).sigTable = _
    rw [sig]
    simp only [SigTables.insertSignature, SigTables.pushFingerprint, SigTables.insertSig,
      SigTables.setNodeSigKey, SigTables.record_sigTable]
  refine ⟨inv.extend settled { extended with } lies ?_ ?_ ?_ ?_, published, pending.trans settled⟩
  · rw [published]
    refine (inv.sig.extend _).publish inv.uf.find_idem ?_ app free
    rw [getElem?_append_right (le_refl _)]
    simp
  · intro key holder entry
    rw [table, update_of_ne]
    · exact entry
    · rintro rfl
      rw [free] at entry
      cases entry
  · intro _
    exact ⟨s.nodes.length, by rw [table, update_self], .of_eq rfl⟩
  · intro entry mem
    have mem : entry ∈ (withApp s term func flattened).pending := mem
    rw [pending, settled] at mem
    cases mem

theorem Invariant.scheduledMerge (inv : Invariant s merges log) (settled : s.pending = []) {a b : Nat}
    (reason : Nat) (insideA : a < s.nodes.length) (insideB : b < s.nodes.length) :
    Invariant { s with explCache := [], pending := (a, b, .assertion reason) :: s.pending }
      ((a, b, reason) :: merges) log where
  uf := inv.uf
  terms := inv.terms
  args := inv.args
  uses := inv.uses
  useRange := inv.useRange
  sig := inv.sig
  represented := by
    intro user node here app
    obtain ⟨holder, entry, linked⟩ := inv.represented user node here app
    exact ⟨holder, entry, linked.more fun _ mem => mem_cons_of_mem _ mem⟩
  merged := by
    intro entry mem
    rcases mem_cons.mp mem with rfl | old
    · exact Linked.of_mem (mem_cons_self ..)
    · exact (inv.merged entry old).more fun _ mem => mem_cons_of_mem _ mem
  scheduled := by
    intro entry mem
    rw [settled] at mem
    rcases mem_cons.mp mem with rfl | old
    · exact ⟨insideA, insideB, mem_cons_self ..⟩
    · cases old
  classes := inv.classes
  forest := inv.forest
  supported := inv.supported.more fun _ mem => mem_cons_of_mem _ mem
  edges := inv.edges
  edgeRange := inv.edgeRange

end Nixie.Euf
