import Nixie.Euf.State
import Nixie.Logic.CongruenceClosure

/-! What applying one scheduled merge can do to the equality solver. -/

namespace Nixie.Euf

namespace UnionFind

variable {uf middle changed : UnionFind} {count winner loser : Nat}

theorem SameClasses.joined (same : uf.SameClasses middle)
    (joined : middle.Joined changed count winner loser) :
    uf.Joined changed count winner loser where
  find := fun x => by rw [joined.find, same.find]
  wellFormed := joined.wellFormed
  restores := fun saved restores => joined.restores saved (same.restores saved restores)

theorem Joined.same (joined : uf.Joined middle count winner loser)
    (same : middle.SameClasses changed) : uf.Joined changed count winner loser where
  find := fun x => by rw [same.find, joined.find]
  wellFormed := same.wellFormed count joined.wellFormed
  restores := fun saved restores => same.restores saved (joined.restores saved restores)

end UnionFind

@[simp] theorem find_fst (uf : UnionFind) (x : Nat) : (uf.find x).1 = uf.findNoCompress x := rfl

theorem findAll_spec {count : Nat} : ∀ {uf : UnionFind} (args : List Nat), uf.WellFormed count →
      (findAll uf args).1 = args.map uf.findNoCompress ∧ uf.SameClasses (findAll uf args).2 := by
  -- Each find keeps the representatives that the later ones return.
  intro uf args
  induction args generalizing uf with
  | nil => exact fun _ => ⟨rfl, .refl uf⟩
  | cons arg rest ih =>
    intro wf
    have same := UnionFind.find_sameClasses wf arg
    obtain ⟨found, later⟩ := ih (same.wellFormed count wf)
    refine ⟨?_, same.trans later⟩
    show uf.findNoCompress arg :: (findAll (uf.find arg).2 rest).1 = _
    rw [found, List.map_cons]
    congr 1
    exact List.map_congr_left fun other _ => same.find other

theorem canonicalizeArgs_spec {count : Nat} {uf : UnionFind} (props : FunctionProperties)
    (args : List Nat) (wf : uf.WellFormed count) :
    (canonicalizeArgs props uf args).1 =
        canonicalOrder props.commutative (args.map uf.findNoCompress) ∧
      uf.SameClasses (canonicalizeArgs props uf args).2 := by
  obtain ⟨found, same⟩ := findAll_spec args wf
  refine ⟨?_, same⟩
  show (if props.commutative then (findAll uf args).1.insertionSort (· ≤ ·)
    else (findAll uf args).1) = _
  rw [found]
  rfl

theorem scanUser_uf {count : Nat} {scan : Scan} (properties : Nat → FunctionProperties)
    (nodes : List ENode) (user : Nat) (wf : scan.uf.WellFormed count) :
    scan.uf.SameClasses (scanUser properties nodes user scan).uf := by
  -- The classes are only searched, by the canonical arguments and by the final comparison.
  unfold scanUser
  split
  · exact .refl _
  · rename_i node _
    split
    · exact .refl _
    · obtain ⟨_, same⟩ := canonicalizeArgs_spec (properties node.func) node.args wf
      have wf' := same.wellFormed count wf
      dsimp only
      split
      · split
        · exact same
        · have first := UnionFind.find_sameClasses wf' user
          exact same.trans (first.trans
            (UnionFind.find_sameClasses (first.wellFormed count wf') _))
      · exact same

theorem scanUsers_uf {count : Nat} (properties : Nat → FunctionProperties) (nodes : List ENode)
    (users : List Nat) : ∀ {scan : Scan}, scan.uf.WellFormed count → scan.uf.SameClasses
        (users.foldl (fun scan user => scanUser properties nodes user scan) scan).uf := by
  induction users with
  | nil => exact fun _ => .refl _
  | cons user rest ih =>
    intro scan wf
    have one := scanUser_uf properties nodes user wf
    exact one.trans (ih (one.wellFormed count wf))

namespace EufSolver

abbrev root (s : EufSolver) (x : Nat) : Nat := s.uf.findNoCompress x

/-- The scan that a merge starts with given classes. -/
def scanFrom (s : EufSolver) (uf : UnionFind) (users : List Nat) : Scan :=
  users.foldl (fun scan user => scanUser s.functionProperties s.nodes user scan)
    { uf := uf, sig := s.sig, buf := [] }

/-- The state after a merge of two classes of which one wins. -/
def afterUnion (s : EufSolver) (a b : Nat) (reason : MergeReason) (uf : UnionFind)
    (winner loser : Nat) : EufSolver :=
  let users := s.useList.lists loser
  let scan := s.scanFrom uf users
  { s with
    proofStamp := min (s.proofStamp + 1) (2 ^ 32 - 1)
    proofForest := (s.proofForest.append a ⟨b, reason, s.proofStamp⟩).append b
      ⟨a, reason, s.proofStamp⟩
    explCache := []
    diseq := s.diseq.merged (s.root a) (s.root b) winner loser
    uf := scan.uf
    sig := scan.sig
    pending := scan.buf.reverse ++ s.pending
    useList := useListPush winner users s.useList }

def survivor (s : EufSolver) (a b : Nat) : Nat :=
  (((s.uf.find a).2.find b).2.union (s.root a) (s.root b)).findNoCompress (s.root a)

/-- A merge between members of one class. -/
structure Skipped (s : EufSolver) (a b : Nat) (after : EufSolver) : Prop where
  equal : s.root a = s.root b
  state : ∃ uf, s.uf.SameClasses uf ∧ after = { s with uf := uf }

/-- A merge that joins two classes. -/
structure Unites (s : EufSolver) (a b : Nat) (reason : MergeReason) (winner loser : Nat)
    (after : EufSolver) : Prop where
  roots : (winner = s.root a ∧ loser = s.root b) ∨ (winner = s.root b ∧ loser = s.root a)
  wins : winner = s.survivor a b
  apart : s.root a ≠ s.root b
  state : ∃ uf, s.uf.Joined uf s.nodes.length winner loser ∧
    after = s.afterUnion a b reason uf winner loser

theorem applyMerge_cases {s : EufSolver} {a b : Nat} {reason : MergeReason}
    (wf : s.uf.WellFormed s.nodes.length) (insideA : a < s.nodes.length)
    (insideB : b < s.nodes.length) :
    s.Skipped a b (s.applyMerge a b reason) ∨
      ∃ winner loser, s.Unites a b reason winner loser (s.applyMerge a b reason) := by
  have sameA := UnionFind.find_sameClasses wf a
  have wfA := sameA.wellFormed _ wf
  have sameAB := sameA.trans (UnionFind.find_sameClasses wfA b)
  have wfAB := sameAB.wellFormed _ wf
  have rootB : (s.uf.find a).2.findNoCompress b = s.root b := sameA.find b
  by_cases equal : s.root a = s.root b
  · refine .inl ⟨equal, _, sameAB, ?_⟩
    unfold applyMerge
    simp only [find_fst, rootB]
    rw [if_pos equal]
  · refine .inr ?_
    -- Representatives of the roots are the roots themselves.
    have selfA : ((s.uf.find a).2.find b).2.findNoCompress (s.root a) = s.root a := by
      rw [sameAB.find]
      exact wf.find_idem a
    have selfB : ((s.uf.find a).2.find b).2.findNoCompress (s.root b) = s.root b := by
      rw [sameAB.find]
      exact wf.find_idem b
    have ltA := wf.find_lt insideA
    have ltB := wf.find_lt insideB
    have apart : ((s.uf.find a).2.find b).2.findNoCompress (s.root a) ≠
        ((s.uf.find a).2.find b).2.findNoCompress (s.root b) := by
      rw [selfA, selfB]
      exact equal
    have unfolded : ∀ winner loser,
        (((s.uf.find a).2.find b).2.union (s.root a) (s.root b)).findNoCompress (s.root a) =
            winner → (if winner = s.root a then s.root b else s.root a) = loser →
          s.applyMerge a b reason = s.afterUnion a b reason
            ((((s.uf.find a).2.find b).2.union (s.root a) (s.root b)).find (s.root a)).2
            winner loser := by
      intro winner loser wins loses
      unfold applyMerge
      simp only [find_fst, rootB]
      rw [if_neg equal]
      simp only [wins, loses]
      rfl
    rcases UnionFind.union_joined wfAB ltA ltB apart with joined | joined
    · rw [selfA, selfB] at joined
      have wins := joined.find (s.root a)
      rw [selfA, if_neg equal] at wins
      refine ⟨s.root a, s.root b, .inl ⟨rfl, rfl⟩, wins.symm, equal, _, ?_,
        unfolded _ _ wins (if_pos rfl)⟩
      exact (sameAB.joined joined).same (UnionFind.find_sameClasses joined.wellFormed _)
    · rw [selfA, selfB] at joined
      have wins := joined.find (s.root a)
      rw [selfA, if_pos rfl] at wins
      refine ⟨s.root b, s.root a, .inr ⟨rfl, rfl⟩, wins.symm, equal, _, ?_,
        unfolded _ _ wins (if_neg (Ne.symm equal))⟩
      exact (sameAB.joined joined).same (UnionFind.find_sameClasses joined.wellFormed _)

end EufSolver

end Nixie.Euf

/-! The signature table: what it registers, and what a scan of a use list keeps of it. -/

namespace Nixie.Euf

open UndoTrail Function

def signature (properties : Nat → FunctionProperties) (image : Nat → Nat) (node : ENode) : SigKey :=
  (node.func, canonicalOrder (properties node.func).commutative (node.args.map image))

theorem canonicalOrder_coarsen {commutative : Bool} {image coarser : Nat → Nat}
    {args others : List Nat} (coarsens : ∀ x y, image x = image y → coarser x = coarser y)
    (same : canonicalOrder commutative (args.map image) =
      canonicalOrder commutative (others.map image)) :
    canonicalOrder commutative (args.map coarser) =
      canonicalOrder commutative (others.map coarser) := by
  -- Partners with equal images have equal coarser images.
  obtain ⟨arranged, order, equal⟩ := canonicalOrder_eq_iff.mp same
  refine canonicalOrder_eq_iff.mpr ⟨arranged, order, ?_⟩
  obtain ⟨length, pairs⟩ := map_eq_map_iff_zip.mp equal
  exact map_eq_map_iff_zip.mpr ⟨length, fun pair mem => coarsens _ _ (pairs pair mem)⟩

theorem canonicalOrder_map {commutative : Bool} {image : Nat → Nat}
    (idem : ∀ x, image (image x) = image x) (args : List Nat) :
    canonicalOrder commutative ((canonicalOrder commutative (args.map image)).map image) =
      canonicalOrder commutative (args.map image) := by
  have twice : (args.map image).map image = args.map image := by
    rw [List.map_map]
    exact List.map_congr_left fun x _ => idem x
  cases commutative with
  | false => exact twice
  | true =>
    -- Sorting again only permutes the representatives.
    refine insertionSort_eq_iff.mpr ?_
    have perm := (List.perm_insertionSort (· ≤ ·) (args.map image)).map image
    rw [twice] at perm
    exact perm

namespace SigTables

/-- The table registers each node under at most one key, which is a signature of the node. -/
structure Valid (tables : SigTables) (properties : Nat → FunctionProperties)
    (nodes : List ENode) (image : Nat → Nat) : Prop where
  registered : ∀ key node, tables.sigTable key = some node ↔ tables.nodeSigKey node = some key
  fits : ∀ user key, tables.nodeSigKey user = some key →
    ∃ node, nodes[user]? = some node ∧ node.isApp = true ∧ key.1 = node.func ∧
      canonicalOrder (properties node.func).commutative (key.2.map image) =
        canonicalOrder (properties node.func).commutative (node.args.map image)
  prefilter : ∀ key node, tables.sigTable key = some node →
    tables.fingerprintTable (fingerprint key) ≠ []

@[simp] theorem record_sigTable (entry : SigTrailEntry) (tables : SigTables) :
    (tables.record entry).sigTable = tables.sigTable := by
  unfold record
  split <;> rfl

@[simp] theorem record_nodeSigKey (entry : SigTrailEntry) (tables : SigTables) :
    (tables.record entry).nodeSigKey = tables.nodeSigKey := by
  unfold record
  split <;> rfl

@[simp] theorem record_fingerprintTable (entry : SigTrailEntry) (tables : SigTables) :
    (tables.record entry).fingerprintTable = tables.fingerprintTable := by
  unfold record
  split <;> rfl

@[simp] theorem record_limits (entry : SigTrailEntry) (tables : SigTables) :
    (tables.record entry).sigTrailLimits = tables.sigTrailLimits := by
  unfold record
  split <;> rfl

theorem updateSigEntry_sigTable (tables : SigTables) (user : Nat) (newKey key : SigKey) :
    (tables.updateSigEntry user newKey).sigTable key =
      if key = newKey then some user
      else if tables.nodeSigKey user = some key then none else tables.sigTable key := by
  unfold updateSigEntry removeOldKey insertSig setNodeSigKey
  cases old : tables.nodeSigKey user with
  | none => simp [update_apply]
  | some oldKey => simp [update_apply, eq_comm]

theorem updateSigEntry_nodeSigKey (tables : SigTables) (user : Nat) (newKey : SigKey) :
    (tables.updateSigEntry user newKey).nodeSigKey =
      update tables.nodeSigKey user (some newKey) := by
  unfold updateSigEntry removeOldKey insertSig setNodeSigKey
  cases tables.nodeSigKey user <;> simp

theorem updateSigEntry_fingerprintTable (tables : SigTables) (user : Nat) (newKey : SigKey) :
    (tables.updateSigEntry user newKey).fingerprintTable = tables.fingerprintTable := by
  unfold updateSigEntry removeOldKey insertSig setNodeSigKey
  cases tables.nodeSigKey user <;> simp

variable {tables : SigTables} {properties : Nat → FunctionProperties} {nodes : List ENode}
  {image : Nat → Nat}

theorem Valid.filtered (valid : tables.Valid properties nodes image) (key : SigKey) :
    (if tables.fingerprintTable (fingerprint key) = [] then none else tables.sigTable key) =
      tables.sigTable key := by
  split
  · rename_i absent
    cases found : tables.sigTable key with
    | none => rfl
    | some node => exact absurd absent (valid.prefilter key node found)
  · rfl

theorem Valid.lookup (valid : tables.Valid properties nodes image) (key : SigKey) :
    tables.lookupValidSig key = (tables.sigTable key, tables) := by
  unfold lookupValidSig
  cases found : tables.sigTable key with
  | none => rfl
  | some node => simp [(valid.registered key node).mp found]

theorem Valid.coarsen {coarser : Nat → Nat} (valid : tables.Valid properties nodes image)
    (coarsens : ∀ x y, image x = image y → coarser x = coarser y) :
    tables.Valid properties nodes coarser where
  registered := valid.registered
  fits := by
    intro user key found
    obtain ⟨node, here, app, func, same⟩ := valid.fits user key found
    exact ⟨node, here, app, func, canonicalOrder_coarsen coarsens same⟩
  prefilter := valid.prefilter

theorem Valid.publish {user : Nat} {node : ENode} (valid : tables.Valid properties nodes image)
    (idem : ∀ x, image (image x) = image x) (here : nodes[user]? = some node)
    (app : node.isApp = true)
    (absent : tables.sigTable (signature properties image node) = none) :
    ((tables.updateSigEntry user (signature properties image node)).pushFingerprint
      (fingerprint (signature properties image node)) user).Valid properties nodes image where
  registered := by
    intro key other
    simp only [pushFingerprint, record_sigTable, record_nodeSigKey, updateSigEntry_sigTable,
      updateSigEntry_nodeSigKey, update_apply]
    by_cases new : key = signature properties image node
    · subst new
      rw [if_pos rfl]
      by_cases same : other = user
      · simp [same]
      · rw [if_neg same]
        constructor
        · intro found
          exact absurd (Option.some.inj found).symm same
        · intro found
          have taken := (valid.registered _ other).mpr found
          rw [absent] at taken
          cases taken
    · rw [if_neg new]
      by_cases same : other = user
      · subst same
        rw [if_pos rfl]
        constructor
        · intro found
          split at found
          · cases found
          · rename_i notOld
            exact absurd ((valid.registered key other).mp found) notOld
        · intro found
          exact absurd (Option.some.inj found).symm new
      · rw [if_neg same]
        split
        · rename_i old
          constructor
          · intro found
            cases found
          · intro found
            have first := (valid.registered key user).mpr old
            have second := (valid.registered key other).mpr found
            rw [first] at second
            exact absurd (Option.some.inj second).symm same
        · exact valid.registered key other
  fits := by
    intro other key found
    simp only [pushFingerprint, record_nodeSigKey, updateSigEntry_nodeSigKey, update_apply] at found
    by_cases same : other = user
    · subst same
      rw [if_pos rfl] at found
      cases found
      exact ⟨node, here, app, rfl, canonicalOrder_map idem node.args⟩
    · rw [if_neg same] at found
      exact valid.fits other key found
  prefilter := by
    intro key other found
    simp only [pushFingerprint, record_sigTable, record_fingerprintTable,
      updateSigEntry_sigTable, updateSigEntry_fingerprintTable, update_apply] at found ⊢
    split
    · simp
    · rename_i ne
      split at found
      · rename_i new
        subst new
        exact absurd rfl ne
      · split at found
        · cases found
        · exact valid.prefilter key other found

theorem Valid.old_key {user : Nat} {node other : ENode} {oldKey : SigKey}
    (valid : tables.Valid properties nodes image) (idem : ∀ x, image (image x) = image x)
    (here : nodes[user]? = some node)
    (absent : tables.sigTable (signature properties image node) = none)
    (old : tables.nodeSigKey user = some oldKey) :
    signature properties image other ≠ oldKey := by
  -- A current signature that fits the application is the application's own signature.
  intro current
  obtain ⟨found, here', _, func, same⟩ := valid.fits user oldKey old
  rw [here] at here'
  cases here'
  have own : oldKey = signature properties image node := by
    have funcs : other.func = node.func := by
      rw [← func, ← current]
      rfl
    have args : oldKey.2 = (signature properties image node).2 := by
      rw [← current] at same ⊢
      simp only [signature, funcs] at same ⊢
      rw [canonicalOrder_map idem] at same
      exact same
    exact Prod.ext func args
  rw [← own, (valid.registered oldKey user).mpr old] at absent
  cases absent

def undoAny : SigTrailEntry → Data → Data
  | .insertedSig key node, (sigTable, nodeSigKey, fingerprints) =>
    (update sigTable key none, update nodeSigKey node none, fingerprints)
  | .removedSig key node, (sigTable, nodeSigKey, fingerprints) =>
    (update sigTable key (some node), update nodeSigKey node (some key), fingerprints)
  | .insertedFingerprint fp node, (sigTable, nodeSigKey, fingerprints) =>
    (sigTable, nodeSigKey, update fingerprints fp (swapRemove node (fingerprints fp)))

def cut (numNodes : Nat) (data : Data) : Data := (data.1, truncate numNodes data.2.1, data.2.2)

theorem truncate_update (numNodes node : Nat) (key : Option SigKey)
    (nodeSigKey : Nat → Option SigKey) :
    truncate numNodes (update nodeSigKey node key) =
      if node < numNodes then update (truncate numNodes nodeSigKey) node key
      else truncate numNodes nodeSigKey := by
  funext other
  split
  · rename_i lies
    by_cases same : other = node
    · subst same
      simp [truncate, lies]
    · simp [truncate, same]
  · rename_i outside
    by_cases same : other = node
    · subst same
      simp [truncate, outside]
    · simp [truncate, same]

theorem undo_cut (numNodes : Nat) (entry : SigTrailEntry) (data : Data) :
    undo numNodes entry (cut numNodes data) = cut numNodes (undoAny entry data) := by
  obtain ⟨sigTable, nodeSigKey, fingerprints⟩ := data
  cases entry with
  | insertedSig key node => simp [undo, undoAny, cut, truncate_update]
  | removedSig key node => simp [undo, undoAny, cut, truncate_update]
  | insertedFingerprint fp node => rfl

theorem undoEach_cut (numNodes : Nat) (entries : List SigTrailEntry) (data : Data) :
    undoEach (undo numNodes) entries (cut numNodes data) =
      cut numNodes (undoEach undoAny entries data) := by
  induction entries generalizing data with
  | nil => rfl
  | cons entry rest ih => rw [undoEach_cons, undo_cut, ih, undoEach_cons]

def data (tables : SigTables) : Data :=
  (tables.sigTable, tables.nodeSigKey, tables.fingerprintTable)

/-- The scopes restore the saved tables. -/
structure Restores (tables : SigTables) (saved : List (Nat × Data)) : Prop where
  scopes : saved.length = tables.sigTrailLimits.length
  kept : Saved undoAny cut tables.sigTrailLimits tables.sigTrail tables.data saved

variable {saved : List (Nat × Data)}

theorem Restores.record {changed : SigTables} {entry : SigTrailEntry}
    (restores : tables.Restores saved) (limits : changed.sigTrailLimits = tables.sigTrailLimits)
    (trail : changed.sigTrail = tables.sigTrail)
    (undone : undoAny entry changed.data = tables.data) :
    (changed.record entry).Restores saved := by
  refine ⟨by rw [record_limits, limits]; exact restores.scopes, ?_⟩
  cases open_ : tables.sigTrailLimits with
  | nil =>
    -- Without a scope there is nothing to restore.
    have none_ : saved = [] := List.length_eq_zero_iff.mp (by rw [restores.scopes, open_]; rfl)
    subst none_
    simp [record, limits, open_, Saved]
  | cons limit rest =>
    have kept := restores.kept.record undone
    have recorded : changed.record entry =
        { changed with sigTrail := entry :: changed.sigTrail } := by
      rw [SigTables.record, limits, open_, if_neg (by simp)]
    rw [recorded]
    rw [← limits, ← trail] at kept
    exact kept

theorem swapRemove_append (node : Nat) (bucket : List Nat) :
    swapRemove node (bucket ++ [node]) = bucket := by
  -- The last occurrence is the last element, which is exchanged with itself.
  have last : (bucket ++ [node]).reverse.idxOf? node = some 0 := by
    rw [List.reverse_append, List.reverse_singleton, List.singleton_append, List.idxOf?_cons]
    simp
  unfold swapRemove
  rw [last]
  simp

theorem Restores.pushFingerprint (restores : tables.Restores saved) (fp node : Nat) :
    (tables.pushFingerprint fp node).Restores saved := by
  refine restores.record rfl rfl ?_
  simp [undoAny, data, swapRemove_append]

theorem Restores.insert {node : Nat} {key : SigKey} (restores : tables.Restores saved)
    (fresh : tables.nodeSigKey node = none) (absent : tables.sigTable key = none) :
    ((tables.setNodeSigKey node (some key)).insertSig key node).Restores saved := by
  refine restores.record rfl rfl ?_
  have keys : update tables.nodeSigKey node none = tables.nodeSigKey :=
    update_eq_self_iff.mpr fresh.symm
  have table : update tables.sigTable key none = tables.sigTable :=
    update_eq_self_iff.mpr absent.symm
  simp [undoAny, data, setNodeSigKey, keys, table]

theorem insertSig_setNodeSigKey (tables : SigTables) (key : SigKey) (node : Nat) :
    (tables.insertSig key node).setNodeSigKey node (some key) =
      (tables.setNodeSigKey node (some key)).insertSig key node := by
  unfold insertSig setNodeSigKey record
  split <;> rfl

theorem Restores.updateSigEntry {user : Nat} {newKey : SigKey}
    (restores : tables.Restores saved)
    (registered : ∀ key, tables.nodeSigKey user = some key → tables.sigTable key = some user)
    (absent : tables.sigTable newKey = none) :
    (tables.updateSigEntry user newKey).Restores saved := by
  unfold SigTables.updateSigEntry
  rw [insertSig_setNodeSigKey]
  cases old : tables.nodeSigKey user with
  | none =>
    rw [removeOldKey, old]
    exact restores.insert old absent
  | some oldKey =>
    have entry := registered oldKey old
    have ne : oldKey ≠ newKey := by
      intro equal
      rw [equal, absent] at entry
      cases entry
    rw [removeOldKey, old]
    -- Undoing the insertion leaves no key, and undoing the removal puts the old one back.
    have removed : (({ tables with
        sigTable := update tables.sigTable oldKey none
        nodeSigKey := update tables.nodeSigKey user none } : SigTables).record
          (.removedSig oldKey user)).Restores saved := by
      refine restores.record rfl rfl ?_
      have table : update tables.sigTable oldKey (some user) = tables.sigTable :=
        update_eq_self_iff.mpr entry.symm
      have keys : update tables.nodeSigKey user (some oldKey) = tables.nodeSigKey :=
        update_eq_self_iff.mpr old.symm
      simp [undoAny, data, table, keys]
    have overwritten : (({ tables with
          sigTable := update tables.sigTable oldKey none
          nodeSigKey := update tables.nodeSigKey user none } : SigTables).record
            (.removedSig oldKey user)).setNodeSigKey user (some newKey) =
        (({ tables with
          sigTable := update tables.sigTable oldKey none } : SigTables).record
            (.removedSig oldKey user)).setNodeSigKey user (some newKey) := by
      unfold SigTables.record setNodeSigKey
      split <;> simp
    dsimp only
    rw [← overwritten]
    apply removed.insert
    · simp
    · simpa [update_of_ne (Ne.symm ne)] using absent

theorem Restores.mark {numNodes : Nat} (restores : tables.Restores saved)
    (inRange : ∀ node, numNodes ≤ node → tables.nodeSigKey node = none) :
    tables.mark.Restores ((numNodes, tables.data) :: saved) := by
  refine ⟨by simp [SigTables.mark, restores.scopes], restores.kept.mark ?_⟩
  have whole : truncate numNodes tables.nodeSigKey = tables.nodeSigKey := by
    funext node
    by_cases lies : node < numNodes
    · simp [truncate, lies]
    · simp [truncate, lies, inRange node (by omega)]
  simp [cut, data, whole]

theorem Restores.rewind {numNodes : Nat} {before : Data} {older : List (Nat × Data)}
    (restores : tables.Restores ((numNodes, before) :: older)) :
    (tables.rewind numNodes).data = before ∧ (tables.rewind numNodes).Restores older := by
  cases open_ : tables.sigTrailLimits with
  | nil =>
    have := restores.scopes
    simp [open_] at this
  | cons limit limits =>
    have kept := restores.kept
    have scopes := restores.scopes
    rw [open_] at kept scopes
    obtain ⟨gives, rest⟩ := kept.close
    -- The source drops the new keys first and undoes the changes then.
    have given : (tables.rewind numNodes).data = before := by
      rw [SigTables.rewind, open_, ← gives, ← undoEach_cut]
      rfl
    refine ⟨given, ?_, ?_⟩
    · rw [SigTables.rewind, open_]
      simpa using scopes
    · rw [given, SigTables.rewind, open_]
      exact rest

end SigTables

end Nixie.Euf
