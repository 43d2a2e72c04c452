import Mathlib.Data.List.Sort
import Nixie.Euf.UnionFind

/-! The e-graph of the equality solver: interning, merging, disequalities and scopes. -/

namespace Nixie.Euf

open UndoTrail Function

/-- Properties of a function symbol. -/
structure FunctionProperties where
  associative : Bool
  commutative : Bool
  hasIdentity : Bool
  deriving DecidableEq, Repr

def FunctionProperties.default : FunctionProperties where
  associative := false
  commutative := false
  hasIdentity := false

def noFunc : Nat := 2 ^ 32 - 1

/-- A term node; the cached fingerprint, which nothing reads, is left out. -/
structure ENode where
  func : Nat
  args : List Nat
  term : Nat
  deriving DecidableEq, Repr

namespace ENode

def leaf (term : Nat) : ENode where
  func := noFunc
  args := []
  term := term

def app (func : Nat) (args : List Nat) (term : Nat) : ENode where
  func := func
  args := args
  term := term

def isApp (node : ENode) : Bool := node.func ≠ noFunc

end ENode

abbrev SigKey := Nat × List Nat

/-- Multiplicative 64-bit hash of a function symbol and canonical arguments. -/
def fingerprint (key : SigKey) : Nat :=
  key.2.foldl (fun h arg => (h * 0x517cc1b727220a95 + arg) % 2 ^ 64) key.1

inductive SigTrailEntry where
  | insertedSig (key : SigKey) (node : Nat)
  | removedSig (key : SigKey) (node : Nat)
  /-- A node was put into a fingerprint bucket. -/
  | insertedFingerprint (fp node : Nat)
  deriving DecidableEq, Repr

/-- The signature table with its fingerprint prefilter. -/
structure SigTables where
  sigTable : SigKey → Option Nat
  /-- Key under which a node is registered; empty beyond the nodes. -/
  nodeSigKey : Nat → Option SigKey
  /-- Nodes by fingerprint; an empty bucket is an absent one. -/
  fingerprintTable : Nat → List Nat
  sigTrail : List SigTrailEntry
  /-- Trail length at each scope entry, innermost first. -/
  sigTrailLimits : List Nat

namespace SigTables

def empty : SigTables where
  sigTable := fun _ => none
  nodeSigKey := fun _ => none
  fingerprintTable := fun _ => []
  sigTrail := []
  sigTrailLimits := []

def record (entry : SigTrailEntry) (tables : SigTables) : SigTables :=
  if tables.sigTrailLimits = [] then tables
  else { tables with sigTrail := entry :: tables.sigTrail }

def pushFingerprint (fp node : Nat) (tables : SigTables) : SigTables :=
  { tables with
    fingerprintTable := update tables.fingerprintTable fp
      (tables.fingerprintTable fp ++ [node]) }.record (.insertedFingerprint fp node)

def insertSig (key : SigKey) (node : Nat) (tables : SigTables) : SigTables :=
  { tables with
    sigTable := update tables.sigTable key (some node) }.record (.insertedSig key node)

def setNodeSigKey (node : Nat) (key : Option SigKey) (tables : SigTables) : SigTables :=
  { tables with nodeSigKey := update tables.nodeSigKey node key }

def insertSignature (key : SigKey) (node fp : Nat) (tables : SigTables) : SigTables :=
  (tables.insertSig key node).pushFingerprint fp node

def removeOldKey (user : Nat) (tables : SigTables) : SigTables :=
  match tables.nodeSigKey user with
  | none => tables
  | some oldKey =>
    { tables with
      sigTable := update tables.sigTable oldKey none }.record (.removedSig oldKey user)

/-- Replace a node's entry by a new key that is absent. -/
def updateSigEntry (user : Nat) (newKey : SigKey) (tables : SigTables) : SigTables :=
  ((tables.removeOldKey user).insertSig newKey user).setNodeSigKey user (some newKey)

/-- Look a signature up; an entry that is not its node's current key is evicted. -/
def lookupValidSig (key : SigKey) (tables : SigTables) : Option Nat × SigTables :=
  match tables.sigTable key with
  | none => (none, tables)
  | some node =>
    if tables.nodeSigKey node = some key then (some node, tables)
    else (none, { tables with sigTable := update tables.sigTable key none })

def mark (tables : SigTables) : SigTables :=
  { tables with sigTrailLimits := tables.sigTrail.length :: tables.sigTrailLimits }

abbrev Data := (SigKey → Option Nat) × (Nat → Option SigKey) × (Nat → List Nat)

/-- Swap the last occurrence of a node to the end of its bucket and drop it. -/
def swapRemove (node : Nat) (bucket : List Nat) : List Nat :=
  match bucket.reverse.idxOf? node with
  | none => bucket
  | some behind =>
    (bucket.set (bucket.length - 1 - behind) (bucket.getLastD node)).dropLast

/-- Undo one change; keys of dropped nodes are not written. -/
def undo (numNodes : Nat) : SigTrailEntry → Data → Data
  | .insertedSig key node, (sigTable, nodeSigKey, fingerprints) =>
    (update sigTable key none,
      if node < numNodes then update nodeSigKey node none else nodeSigKey, fingerprints)
  | .removedSig key node, (sigTable, nodeSigKey, fingerprints) =>
    (update sigTable key (some node),
      if node < numNodes then update nodeSigKey node (some key) else nodeSigKey,
      fingerprints)
  | .insertedFingerprint fp node, (sigTable, nodeSigKey, fingerprints) =>
    (sigTable, nodeSigKey, update fingerprints fp (swapRemove node (fingerprints fp)))

def truncate (numNodes : Nat) (nodeSigKey : Nat → Option SigKey) : Nat → Option SigKey :=
  fun node => if node < numNodes then nodeSigKey node else none

/-- Close a scope that was opened with a given number of nodes. -/
def rewind (numNodes : Nat) (tables : SigTables) : SigTables :=
  match tables.sigTrailLimits with
  | [] => { tables with nodeSigKey := truncate numNodes tables.nodeSigKey }
  | limit :: limits =>
    let restored := undoEach (undo numNodes) (above limit tables.sigTrail)
      (tables.sigTable, truncate numNodes tables.nodeSigKey, tables.fingerprintTable)
    { sigTable := restored.1
      nodeSigKey := restored.2.1
      fingerprintTable := restored.2.2
      sigTrail := below limit tables.sigTrail
      sigTrailLimits := limits }

end SigTables

/-- The same key for a pair of nodes in either order. -/
def orderedPair (a b : Nat) : Nat × Nat := if a ≤ b then (a, b) else (b, a)

/-- A disequality constraint. -/
structure Diseq where
  lhs : Nat
  rhs : Nat
  reason : Nat
  /-- Representatives of both nodes as of the last assertion or rewrite. -/
  cachedPair : Nat × Nat
  deriving DecidableEq, Repr

inductive DiseqPairTrailEntry where
  /-- A disequality was appended and its pair counted. -/
  | asserted (idx : Nat)
  /-- A merge rewrote the pair of a disequality. -/
  | rewrote (idx : Nat) (old : Nat × Nat)
  deriving DecidableEq, Repr

/-- The disequalities with their watch lists and the index of proven pairs. -/
structure DiseqIndex where
  diseqs : List Diseq
  /-- Disequalities with an endpoint in the class, by representative. -/
  diseqWatch : AppendTable Nat
  /-- Number of disequalities by pair; zero is an absent pair. -/
  diseqPairCounts : Nat × Nat → Nat
  diseqPairTrail : List DiseqPairTrailEntry
  /-- Trail length at each scope entry, innermost first. -/
  diseqPairTrailLimits : List Nat
  diseqStamp : Nat → Nat
  diseqStampGen : Nat
  pendingDiseqConflict : Option Nat
  /-- The violated disequality at each scope entry, newest first. -/
  pendingTrail : List (Option Nat)
  /-- Length of that trail at each scope entry, innermost first. -/
  pendingTrailLimits : List Nat

namespace DiseqIndex

def empty : DiseqIndex where
  diseqs := []
  diseqWatch := .empty
  diseqPairCounts := fun _ => 0
  diseqPairTrail := []
  diseqPairTrailLimits := []
  diseqStamp := fun _ => 0
  diseqStampGen := 0
  pendingDiseqConflict := none
  pendingTrail := []
  pendingTrailLimits := []

def incPair (key : Nat × Nat) (counts : Nat × Nat → Nat) : Nat × Nat → Nat :=
  update counts key (counts key + 1)

def decPair (key : Nat × Nat) (counts : Nat × Nat → Nat) : Nat × Nat → Nat :=
  update counts key (counts key - 1)

def recordPair (entry : DiseqPairTrailEntry) (index : DiseqIndex) : DiseqIndex :=
  if index.diseqPairTrailLimits = [] then index
  else { index with diseqPairTrail := entry :: index.diseqPairTrail }

def watchPush (rep idx : Nat) (index : DiseqIndex) : DiseqIndex :=
  { index with diseqWatch := index.diseqWatch.append rep idx }

def noteConflict (idx : Nat) (index : DiseqIndex) : DiseqIndex :=
  { index with
    pendingDiseqConflict := if index.pendingDiseqConflict = none then some idx
      else index.pendingDiseqConflict }

def assertDiseq (a b ra rb reason : Nat) (index : DiseqIndex) : DiseqIndex :=
  let idx := index.diseqs.length
  let cachedPair := orderedPair ra rb
  let diseq : Diseq := { lhs := a, rhs := b, reason := reason, cachedPair := cachedPair }
  let index := { index with
    diseqPairCounts := incPair cachedPair index.diseqPairCounts }.recordPair (.asserted idx)
  let index := { index with
    diseqs := index.diseqs ++ [diseq]
    diseqStamp := update index.diseqStamp idx 0 }
  let index := index.watchPush ra idx
  if ra ≠ rb then index.watchPush rb idx else index.noteConflict idx

/-- A pair with both merged representatives replaced by the surviving one. -/
def renamePair (rootA rootB newRoot : Nat) (old : Nat × Nat) : Nat × Nat :=
  (if old.1 = rootA ∨ old.1 = rootB then newRoot else old.1,
    if old.2 = rootA ∨ old.2 = rootB then newRoot else old.2)

def setPair (didx : Nat) (pair : Nat × Nat) (diseqs : List Diseq) : List Diseq :=
  diseqs.modify didx fun diseq => { diseq with cachedPair := pair }

/-- Rewrite the pair of one watched disequality, once for each merge. -/
def rewritePair (rootA rootB newRoot didx : Nat) (index : DiseqIndex) : DiseqIndex :=
  match index.diseqs[didx]? with
  | none => index
  | some diseq =>
    if index.diseqStamp didx = index.diseqStampGen then index
    else
      let index := { index with
        diseqStamp := update index.diseqStamp didx index.diseqStampGen }
      let old := diseq.cachedPair
      let new := renamePair rootA rootB newRoot old
      if new = old then index
      else
        let rewritten : DiseqIndex := { index with
          diseqPairCounts := incPair new (decPair old index.diseqPairCounts)
          diseqs := setPair didx new index.diseqs }
        rewritten.recordPair (.rewrote didx old)

def rewritePairs (rootA rootB newRoot otherRoot : Nat) (index : DiseqIndex) : DiseqIndex :=
  let index := { index with diseqStampGen := index.diseqStampGen + 1 }
  let watched := index.diseqWatch.lists newRoot ++ index.diseqWatch.lists otherRoot
  watched.foldl (fun index didx => index.rewritePair rootA rootB newRoot didx) index

/-- Test one disequality of the absorbed class and watch it on the surviving one. -/
def testWatched (newRoot didx : Nat) (index : DiseqIndex) : DiseqIndex :=
  let violated := (index.diseqs[didx]?).any fun diseq => diseq.cachedPair.1 = diseq.cachedPair.2
  (if violated then index.noteConflict didx else index).watchPush newRoot didx

def merged (rootA rootB newRoot otherRoot : Nat) (index : DiseqIndex) : DiseqIndex :=
  let index := index.rewritePairs rootA rootB newRoot otherRoot
  (index.diseqWatch.lists otherRoot).foldl (fun index didx => index.testWatched newRoot didx) index

def mark (index : DiseqIndex) : DiseqIndex :=
  { index with
    diseqWatch := index.diseqWatch.mark
    diseqPairTrailLimits := index.diseqPairTrail.length :: index.diseqPairTrailLimits
    pendingTrailLimits := index.pendingTrail.length :: index.pendingTrailLimits
    pendingTrail := index.pendingDiseqConflict :: index.pendingTrail }

/-- Undo one change of the pair counts and the cached pairs. -/
def undoPair : DiseqPairTrailEntry → (Nat × Nat → Nat) × List Diseq → (Nat × Nat → Nat) × List Diseq
  | .asserted idx, (counts, diseqs) =>
    match diseqs[idx]? with
    | none => (counts, diseqs)
    | some diseq => (decPair diseq.cachedPair counts, diseqs)
  | .rewrote idx old, (counts, diseqs) =>
    match diseqs[idx]? with
    | none => (counts, diseqs)
    | some diseq => (incPair old (decPair diseq.cachedPair counts), setPair idx old diseqs)

def rewindPairs (index : DiseqIndex) : DiseqIndex :=
  match index.diseqPairTrailLimits with
  | [] => index
  | limit :: limits =>
    let restored := undoEach undoPair (above limit index.diseqPairTrail)
      (index.diseqPairCounts, index.diseqs)
    { index with
      diseqPairCounts := restored.1
      diseqs := restored.2
      diseqPairTrail := below limit index.diseqPairTrail
      diseqPairTrailLimits := limits }

def restoreConflict (index : DiseqIndex) : DiseqIndex :=
  match index.pendingTrailLimits with
  | [] => index
  | limit :: limits =>
    { index with
      pendingDiseqConflict := ((above limit index.pendingTrail).getLast?).getD none
      pendingTrail := below limit index.pendingTrail
      pendingTrailLimits := limits }

/-- Close a scope that was opened with the given numbers of nodes and disequalities. -/
def rewind (numNodes numDiseqs : Nat) (index : DiseqIndex) : DiseqIndex :=
  -- The undo reads the pairs of the disequalities that are dropped afterwards.
  let index := index.rewindPairs
  let index := { index with
    diseqs := index.diseqs.take numDiseqs
    diseqStamp := fun idx => if idx < numDiseqs then index.diseqStamp idx else 0
    diseqWatch := index.diseqWatch.rewind numNodes }
  index.restoreConflict

end DiseqIndex

inductive MergeReason where
  | assertion (term : Nat)
  | congruence (term1 term2 : Nat)
  deriving DecidableEq, Repr

/-- A directed edge of the proof forest. -/
structure MergeEdge where
  other : Nat
  reason : MergeReason
  stamp : Nat
  deriving DecidableEq, Repr

/-- The equality solver; watches on equality atoms, which only guide the search, are left out. -/
structure EufSolver where
  uf : UnionFind
  nodes : List ENode
  termToNode : Nat → Option Nat
  diseq : DiseqIndex
  pending : List (Nat × Nat × MergeReason)
  /-- Applications with an argument in the class, by representative. -/
  useList : AppendTable Nat
  sig : SigTables
  /-- Numbers of nodes and disequalities at each scope entry, innermost first. -/
  contextStack : List (Nat × Nat)
  proofForest : AppendTable MergeEdge
  functionProperties : Nat → FunctionProperties
  explCache : List ((Nat × Nat) × List Nat)
  proofStamp : Nat

def findAll (uf : UnionFind) : List Nat → List Nat × UnionFind
  | [] => ([], uf)
  | arg :: rest =>
    let found := uf.find arg
    let others := findAll found.2 rest
    (found.1 :: others.1, others.2)

def canonicalizeArgs (props : FunctionProperties) (uf : UnionFind) (args : List Nat) :
    List Nat × UnionFind :=
  let found := findAll uf args
  (if props.commutative then found.1.insertionSort (· ≤ ·) else found.1, found.2)

/-- The part of the state that a scan of one use list changes. -/
structure Scan where
  uf : UnionFind
  sig : SigTables
  buf : List (Nat × Nat × MergeReason)

/-- Recompute the signature of one application; a taken signature is a congruence. -/
def scanUser (properties : Nat → FunctionProperties) (nodes : List ENode) (user : Nat)
    (scan : Scan) : Scan :=
  match nodes[user]? with
  | none => scan
  | some node =>
    if node.func = noFunc then scan
    else
      let canon := canonicalizeArgs (properties node.func) scan.uf node.args
      let key := (node.func, canon.1)
      let newFp := fingerprint key
      -- An absent fingerprint means that the signature is absent as well.
      match if scan.sig.fingerprintTable newFp = [] then none else scan.sig.sigTable key with
      | some existing =>
        if existing = user then { scan with uf := canon.2 }
        else
          let foundUser := canon.2.find user
          let foundExisting := foundUser.2.find existing
          { scan with
            uf := foundExisting.2
            buf := if foundUser.1 = foundExisting.1 then scan.buf
              else scan.buf ++ [(user, existing, .congruence user existing)] }
      | none =>
        { scan with
          uf := canon.2
          sig := (scan.sig.updateSigEntry user key).pushFingerprint newFp user }

namespace EufSolver

/-- A solver without nodes whose function symbols have the given properties. -/
def new (properties : Nat → FunctionProperties) : EufSolver where
  uf := .new
  nodes := []
  termToNode := fun _ => none
  diseq := .empty
  pending := []
  useList := .empty
  sig := .empty
  contextStack := []
  proofForest := .empty
  functionProperties := properties
  explCache := []
  proofStamp := 0

def flattenArgs (func : Nat) (args : List Nat) (s : EufSolver) : List Nat :=
  if (s.functionProperties func).associative then
    args.flatMap fun arg =>
      match s.nodes[arg]? with
      | some node => if node.isApp ∧ node.func = func then node.args else [arg]
      | none => [arg]
  else args

def useListPush (node : Nat) (entries : List Nat) (useList : AppendTable Nat) : AppendTable Nat :=
  entries.foldl (fun useList entry => useList.append node entry) useList

def applyMerge (a b : Nat) (reason : MergeReason) (s : EufSolver) : EufSolver :=
  let foundA := s.uf.find a
  let foundB := foundA.2.find b
  let rootA := foundA.1
  let rootB := foundB.1
  if rootA = rootB then { s with uf := foundB.2 }
  else
    let stamp := s.proofStamp
    let joined := (foundB.2.union rootA rootB).find rootA
    let newRoot := joined.1
    let otherRoot := if newRoot = rootA then rootB else rootA
    let users := s.useList.lists otherRoot
    let scan := users.foldl (fun scan user => scanUser s.functionProperties s.nodes user scan)
      { uf := joined.2, sig := s.sig, buf := [] }
    { s with
      proofStamp := min (s.proofStamp + 1) (2 ^ 32 - 1)
      proofForest := (s.proofForest.append a ⟨b, reason, stamp⟩).append b ⟨a, reason, stamp⟩
      explCache := []
      diseq := s.diseq.merged rootA rootB newRoot otherRoot
      uf := scan.uf
      sig := scan.sig
      pending := scan.buf.reverse ++ s.pending
      useList := useListPush newRoot users s.useList }

def propagateLoop : Nat → EufSolver → EufSolver
  | 0, s => s
  | fuel + 1, s =>
    match s.pending with
    | [] => s
    | (a, b, reason) :: rest => propagateLoop fuel (applyMerge a b reason { s with pending := rest })

/-- Rounds that apply every merge: a union schedules at most one merge for each use. -/
def propagateFuel (s : EufSolver) : Nat :=
  s.pending.length +
    s.nodes.length * ((List.range s.nodes.length).map fun x => (s.useList.lists x).length).sum

def propagate (s : EufSolver) : EufSolver := propagateLoop s.propagateFuel s

/-- Schedule a merge and apply it with all its consequences. -/
def schedule (a b : Nat) (reason : MergeReason) (s : EufSolver) : EufSolver :=
  propagate { s with explCache := [], pending := (a, b, reason) :: s.pending }

def addNode (node : ENode) (key : Option SigKey) (s : EufSolver) : EufSolver :=
  let idx := s.nodes.length
  { s with
    nodes := s.nodes ++ [node]
    uf := s.uf.add
    useList := s.useList.grow idx
    proofForest := s.proofForest.grow idx
    sig := s.sig.setNodeSigKey idx key
    termToNode := update s.termToNode node.term (some idx) }

def intern (term : Nat) (s : EufSolver) : Nat × EufSolver :=
  match s.termToNode term with
  | some idx => (idx, s)
  | none => (s.nodes.length, s.addNode (.leaf term) none)

def registerUses (idx : Nat) : List Nat → EufSolver → EufSolver
  | [], s => s
  | arg :: rest, s =>
    let found := s.uf.find arg
    registerUses idx rest
      { s with uf := found.2, useList := s.useList.append found.1 idx }

/-- Intern a function application; one congruent to an older application is merged with it. -/
def internApp (term func : Nat) (args : List Nat) (s : EufSolver) : Nat × EufSolver :=
  match s.termToNode term with
  | some idx => (idx, s)
  | none =>
    let flattened := s.flattenArgs func args
    let canon := canonicalizeArgs (s.functionProperties func) s.uf flattened
    let key := (func, canon.1)
    let looked := s.sig.lookupValidSig key
    let idx := s.nodes.length
    let s := { s with uf := canon.2, sig := looked.2 }.addNode (.app func flattened term)
      (if looked.1 = none then some key else none)
    let s := s.registerUses idx flattened
    match looked.1 with
    | some existing => (idx, s.schedule idx existing (.congruence idx existing))
    | none => (idx, { s with sig := s.sig.insertSignature key idx (fingerprint key) })

def merge (a b reason : Nat) (s : EufSolver) : EufSolver := s.schedule a b (.assertion reason)

def assertDiseq (a b reason : Nat) (s : EufSolver) : EufSolver :=
  { s with
    diseq := s.diseq.assertDiseq a b (s.uf.findNoCompress a) (s.uf.findNoCompress b) reason }

def areEqual (a b : Nat) (s : EufSolver) : Bool := s.uf.findNoCompress a = s.uf.findNoCompress b

def areProvenDisequal (a b : Nat) (s : EufSolver) : Bool :=
  let ra := s.uf.findNoCompress a
  let rb := s.uf.findNoCompress b
  ra ≠ rb ∧ s.diseq.diseqPairCounts (orderedPair ra rb) ≠ 0

def push (s : EufSolver) : EufSolver :=
  { s with
    contextStack := (s.nodes.length, s.diseq.diseqs.length) :: s.contextStack
    uf := s.uf.push
    sig := s.sig.mark
    proofForest := s.proofForest.mark
    useList := s.useList.mark
    diseq := s.diseq.mark }

def pop (s : EufSolver) : EufSolver :=
  match s.contextStack with
  | [] => s
  | (numNodes, numDiseqs) :: contexts =>
    { s with
      contextStack := contexts
      pending := []
      diseq := s.diseq.rewind numNodes numDiseqs
      nodes := s.nodes.take numNodes
      uf := s.uf.pop
      useList := s.useList.rewind numNodes
      proofForest := s.proofForest.rewind numNodes
      explCache := []
      termToNode := fun term => (s.termToNode term).filter fun idx => idx < numNodes
      sig := s.sig.rewind numNodes }

end EufSolver

end Nixie.Euf
