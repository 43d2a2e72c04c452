import Mathlib.Algebra.BigOperators.Group.Finset.Piecewise
import Mathlib.Algebra.Order.BigOperators.Group.Finset
import Nixie.Euf.Scan
import Nixie.Graph.Forest

/-! The invariant of the equality solver, and its preservation by one scheduled merge. -/

namespace Nixie.Euf

open UndoTrail Forest List Function

def ends (entry : Nat × Nat × MergeReason) : Nat × Nat := (entry.1, entry.2.1)

/-- A scheduled merge was asserted or joins congruent applications. -/
def Justified (properties : Nat → FunctionProperties) (nodes : List ENode) (image : Nat → Nat)
    (merges : List (Nat × Nat × Nat)) : Nat × Nat × MergeReason → Prop
  | (a, b, .assertion term) => a < nodes.length ∧ b < nodes.length ∧ (a, b, term) ∈ merges
  | (a, b, .congruence x y) => a = x ∧ b = y ∧ Congruent properties nodes image x y

theorem Justified.inside {properties : Nat → FunctionProperties} {nodes : List ENode}
    {image : Nat → Nat} {merges : List (Nat × Nat × Nat)} {a b : Nat} {reason : MergeReason}
    (justified : Justified properties nodes image merges (a, b, reason)) :
    a < nodes.length ∧ b < nodes.length := by
  cases reason with
  | assertion term => exact ⟨justified.1, justified.2.1⟩
  | congruence x y =>
    obtain ⟨rfl, rfl, congruent⟩ := justified
    exact congruent.inside

theorem Justified.coarsen {properties : Nat → FunctionProperties} {nodes : List ENode}
    {image coarser : Nat → Nat} {merges : List (Nat × Nat × Nat)}
    {entry : Nat × Nat × MergeReason}
    (coarsens : ∀ x y, image x = image y → coarser x = coarser y)
    (justified : Justified properties nodes image merges entry) :
    Justified properties nodes coarser merges entry := by
  obtain ⟨a, b, reason⟩ := entry
  cases reason with
  | assertion term => exact justified
  | congruence x y => exact ⟨justified.1, justified.2.1, justified.2.2.coarsen coarsens⟩

/-- Two applications of one symbol whose arguments can be paired with related partners. -/
def Applied (properties : Nat → FunctionProperties) (nodes : List ENode)
    (related : Nat → Nat → Prop) (x y : Nat) : Prop :=
  ∃ left right arranged, nodes[x]? = some left ∧ nodes[y]? = some right ∧ left.isApp = true ∧
    right.isApp = true ∧ left.func = right.func ∧
    Arranged (properties left.func).commutative arranged right.args ∧
    left.args.length = arranged.length ∧
    ∀ pair ∈ left.args.zip arranged, related pair.1 pair.2

theorem Congruent.applied {properties : Nat → FunctionProperties} {nodes : List ENode}
    {image : Nat → Nat} {x y : Nat} (congruent : Congruent properties nodes image x y) :
    Applied properties nodes (fun x y => image x = image y) x y := by
  obtain ⟨left, right, hereX, hereY, appX, appY, same⟩ := congruent
  have funcs : left.func = right.func := congrArg Prod.fst same
  have args := congrArg Prod.snd same
  simp only [signature, ← funcs] at args
  obtain ⟨arranged, order, images⟩ := canonicalOrder_eq_iff.mp args
  obtain ⟨length, pairs⟩ := map_eq_map_iff_zip.mp images
  exact ⟨left, right, arranged, hereX, hereY, appX, appY, funcs, order, length, pairs⟩

/-- Each merge of a log, newest first, was asserted or follows by congruence from older ones. -/
def Supported (properties : Nat → FunctionProperties) (nodes : List ENode)
    (merges : List (Nat × Nat × Nat)) : List (Nat × Nat × MergeReason) → Prop
  | [] => True
  | (a, b, reason) :: older =>
    (match reason with
      | .assertion term => (a, b, term) ∈ merges
      | .congruence x y =>
        a = x ∧ b = y ∧ Applied properties nodes (Joins ends (· ∈ older)) x y) ∧
      Supported properties nodes merges older

/-- The state of the solver, described by the live merges and the log of applied ones. -/
structure Invariant (s : EufSolver) (merges : List (Nat × Nat × Nat))
    (log : List (Nat × Nat × MergeReason)) : Prop where
  uf : s.uf.WellFormed s.nodes.length
  terms : ∀ term idx, s.termToNode term = some idx → idx < s.nodes.length
  args : ∀ node ∈ s.nodes, ∀ arg ∈ node.args, arg < s.nodes.length
  uses : ∀ user node, s.nodes[user]? = some node → node.isApp = true →
    ∀ arg ∈ node.args, user ∈ s.useList.lists (s.root arg)
  useRange : ∀ rep, s.nodes.length ≤ rep → s.useList.lists rep = []
  sig : s.sig.Valid s.functionProperties s.nodes s.root
  represented : ∀ user, Represented s.functionProperties s.nodes s.root s.sig s.pending user
  merged : ∀ entry ∈ merges, Linked s.root s.pending entry.1 entry.2.1
  scheduled : ∀ entry ∈ s.pending, Justified s.functionProperties s.nodes s.root merges entry
  classes : ∀ x y, s.root x = s.root y ↔ Joins ends (· ∈ log) x y
  forest : IsForest ends log
  supported : Supported s.functionProperties s.nodes merges log
  edges : ∀ x y reason, (∃ stamp, ⟨y, reason, stamp⟩ ∈ s.proofForest.lists x) ↔
      (x, y, reason) ∈ log ∨ (y, x, reason) ∈ log
  edgeRange : ∀ node, s.nodes.length ≤ node → s.proofForest.lists node = []

namespace EufSolver

variable {s : EufSolver} {a b : Nat} {reason : MergeReason} {winner loser : Nat}

theorem useListPush_lists (node : Nat) (entries : List Nat) (useList : AppendTable Nat)
    (rep : Nat) : (useListPush node entries useList).lists rep =
      if rep = node then useList.lists node ++ entries else useList.lists rep := by
  unfold useListPush
  induction entries generalizing useList with
  | nil => simp +contextual
  | cons entry rest ih =>
    rw [foldl_cons, ih]
    by_cases same : rep = node
    · simp [same, AppendTable.append]
    · simp [same, AppendTable.append]

theorem useListPush_restores {saved : List (Nat × (Nat → List Nat))} (node : Nat)
    (entries : List Nat) : ∀ {useList : AppendTable Nat}, useList.Restores saved →
      (useListPush node entries useList).Restores saved := by
  unfold useListPush
  induction entries with
  | nil => exact fun restores => restores
  | cons entry rest ih => exact fun restores => ih (restores.append node entry)

theorem joined_eq_iff {uf : UnionFind} {count : Nat}
    (roots : (winner = s.root a ∧ loser = s.root b) ∨ (winner = s.root b ∧ loser = s.root a))
    (joined : s.uf.Joined uf count winner loser) (x y : Nat) :
    uf.findNoCompress x = uf.findNoCompress y ↔
      s.root x = s.root y ∨ (s.root x = s.root a ∧ s.root b = s.root y) ∨
        (s.root x = s.root b ∧ s.root a = s.root y) := by
  rw [joined.find, joined.find]
  -- The sides are compared after the losing class was renamed.
  rcases roots with ⟨rfl, rfl⟩ | ⟨rfl, rfl⟩ <;> grind

theorem joined_coarsens {uf : UnionFind} {count : Nat}
    (joined : s.uf.Joined uf count winner loser) (x y : Nat) (equal : s.root x = s.root y) :
    uf.findNoCompress x = uf.findNoCompress y := by
  rw [joined.find, joined.find]
  rw [root, root] at equal
  rw [equal]

end EufSolver

open EufSolver

variable {s : EufSolver} {merges : List (Nat × Nat × Nat)}
  {log : List (Nat × Nat × MergeReason)} {a b : Nat} {reason : MergeReason}
  {rest : List (Nat × Nat × MergeReason)} {winner loser : Nat}

theorem Invariant.skip {uf : UnionFind} (inv : Invariant s merges log)
    (next : s.pending = (a, b, reason) :: rest) (equal : s.root a = s.root b)
    (same : s.uf.SameClasses uf) :
    Invariant { s with uf := uf, pending := rest } merges log := by
  have roots : ({ s with uf := uf, pending := rest } : EufSolver).root = s.root :=
    funext same.find
  have linked : ∀ {x y}, Linked s.root s.pending x y → Linked s.root rest x y := by
    intro x y
    refine Linked.transfer (fun _ _ equal => equal) fun x y reason mem => ?_
    rw [next] at mem
    rcases mem_cons.mp mem with first | later
    · cases first
      exact .of_eq equal
    · exact .of_mem later
  exact {
    uf := same.wellFormed _ inv.uf
    terms := inv.terms
    args := inv.args
    uses := by
      rw [roots]
      exact inv.uses
    useRange := inv.useRange
    sig := by
      rw [roots]
      exact inv.sig
    represented := by
      rw [roots]
      intro user node here app
      obtain ⟨holder, entry, link⟩ := inv.represented user node here app
      exact ⟨holder, entry, linked link⟩
    merged := by
      rw [roots]
      exact fun entry mem => linked (inv.merged entry mem)
    scheduled := by
      rw [roots]
      exact fun entry mem => inv.scheduled entry (by simp [next, mem])
    classes := by
      rw [roots]
      exact inv.classes
    forest := inv.forest
    supported := inv.supported
    edges := inv.edges
    edgeRange := inv.edgeRange }

theorem Invariant.scanned {uf : UnionFind} (inv : Invariant s merges log)
    (next : s.pending = (a, b, reason) :: rest)
    (roots : (winner = s.root a ∧ loser = s.root b) ∨ (winner = s.root b ∧ loser = s.root a))
    (joined : s.uf.Joined uf s.nodes.length winner loser) :
    Scanned s uf.findNoCompress rest [] (s.scanFrom uf (s.useList.lists loser)) := by
  have coarsens := joined_coarsens joined
  have start : Scanned s uf.findNoCompress rest (s.useList.lists loser)
      { uf := uf, sig := s.sig, buf := [] } := {
    uf := joined.wellFormed
    find := fun _ => rfl
    valid := inv.sig.coarsen coarsens
    represented := by
      intro user
      by_cases listed : user ∈ s.useList.lists loser
      · exact .inl listed
      · refine .inr fun node here app => ?_
        -- No argument of an unlisted application was in the losing class.
        have same : signature s.functionProperties uf.findNoCompress node =
            signature s.functionProperties s.root node := by
          unfold signature
          congr 2
          refine map_congr_left fun arg mem => ?_
          rw [joined.find]
          refine if_neg fun lost => listed ?_
          rw [← lost]
          exact inv.uses user node here app arg mem
        obtain ⟨holder, entry, linked⟩ := inv.represented user node here app
        refine ⟨holder, by rw [same]; exact entry, ?_⟩
        refine linked.transfer coarsens fun x y reason mem => ?_
        rw [next] at mem
        rcases mem_cons.mp mem with first | later
        · cases first
          exact .of_eq ((joined_eq_iff roots joined _ _).mpr (.inr (.inl ⟨rfl, rfl⟩)))
        · exact .of_mem (by simpa using later)
    found := by simp
    restores := fun _ kept => kept }
  exact start.run joined.wellFormed.find_idem _

theorem Invariant.unite {uf : UnionFind} (inv : Invariant s merges log)
    (next : s.pending = (a, b, reason) :: rest)
    (roots : (winner = s.root a ∧ loser = s.root b) ∨ (winner = s.root b ∧ loser = s.root a))
    (apart : s.root a ≠ s.root b) (joined : s.uf.Joined uf s.nodes.length winner loser) :
    Invariant (({ s with pending := rest } : EufSolver).afterUnion a b reason uf winner loser)
      merges ((a, b, reason) :: log) := by
  have justified := inv.scheduled (a, b, reason) (by simp [next])
  obtain ⟨insideA, insideB⟩ := justified.inside
  have scanned := inv.scanned next roots joined
  have coarsens := joined_coarsens joined
  have insideWinner : winner < s.nodes.length := by
    rcases roots with ⟨rfl, _⟩ | ⟨rfl, _⟩
    · exact inv.uf.find_lt insideA
    · exact inv.uf.find_lt insideB
  have images : (({ s with pending := rest } : EufSolver).afterUnion a b reason uf winner
      loser).root = uf.findNoCompress := funext scanned.find
  -- The merge that was scheduled has been applied.
  have linked : ∀ {x y}, Linked s.root s.pending x y → Linked uf.findNoCompress
        ((s.scanFrom uf (s.useList.lists loser)).buf.reverse ++ rest) x y := by
    intro x y
    refine Linked.transfer coarsens fun x y reason mem => ?_
    rw [next] at mem
    rcases mem_cons.mp mem with first | later
    · cases first
      exact .of_eq ((joined_eq_iff roots joined _ _).mpr (.inr (.inl ⟨rfl, rfl⟩)))
    · exact .of_mem (mem_append_right _ later)
  exact {
    uf := scanned.uf
    terms := inv.terms
    args := inv.args
    uses := by
      rw [images]
      intro user node here app arg mem
      have listed := inv.uses user node here app arg mem
      show user ∈ (useListPush winner (s.useList.lists loser) s.useList).lists _
      rw [useListPush_lists, joined.find]
      -- The losing class's uses are appended to the winner's.
      by_cases lost : s.root arg = loser
      · rw [if_pos lost, if_pos rfl]
        rw [lost] at listed
        exact mem_append_right _ listed
      · rw [if_neg lost]
        by_cases won : s.root arg = winner
        · rw [if_pos won]
          rw [won] at listed
          exact mem_append_left _ listed
        · rw [if_neg won]
          exact listed
    useRange := by
      intro rep outside
      show (useListPush winner (s.useList.lists loser) s.useList).lists rep = []
      have outside : s.nodes.length ≤ rep := outside
      rw [useListPush_lists, if_neg (by omega)]
      exact inv.useRange rep outside
    sig := by
      rw [images]
      exact scanned.valid
    represented := by
      rw [images]
      intro user node here app
      rcases scanned.represented user with none_ | done
      · cases none_
      · obtain ⟨holder, entry, link⟩ := done node here app
        refine ⟨holder, entry, link.more fun entry mem => ?_⟩
        show entry ∈ (s.scanFrom uf (s.useList.lists loser)).buf.reverse ++ rest
        simpa using mem
    merged := by
      rw [images]
      exact fun entry mem => linked (inv.merged entry mem)
    scheduled := by
      rw [images]
      intro entry mem
      rcases mem_append.mp mem with found | old
      · obtain ⟨x, y, rfl, congruent⟩ := scanned.found entry (mem_reverse.mp found)
        exact ⟨rfl, rfl, congruent⟩
      · exact (inv.scheduled entry (by rw [next]; exact mem_cons_of_mem _ old)).coarsen
          coarsens
    classes := by
      rw [images]
      intro x y
      rw [joined_eq_iff roots joined, Joins.cons_iff, inv.classes, inv.classes, inv.classes,
        inv.classes, inv.classes]
      rfl
    forest := ⟨fun connected => apart ((inv.classes a b).mpr connected), inv.forest⟩
    supported := by
      refine ⟨?_, inv.supported⟩
      cases reason with
      | assertion term => exact justified.2.2
      | congruence x y =>
        obtain ⟨rfl, rfl, congruent⟩ := justified
        refine ⟨rfl, rfl, ?_⟩
        obtain ⟨left, right, arranged, hereX, hereY, appX, appY, funcs, order, length, pairs⟩ :=
          congruent.applied
        exact ⟨left, right, arranged, hereX, hereY, appX, appY, funcs, order, length,
          fun pair mem => (inv.classes _ _).mp (pairs pair mem)⟩
    edges := by
      intro x y reason'
      have old := inv.edges x y reason'
      show (∃ stamp, ⟨y, reason', stamp⟩ ∈ ((s.proofForest.append a ⟨b, reason, s.proofStamp⟩).append
        b ⟨a, reason, s.proofStamp⟩).lists x) ↔ _
      have ne : a ≠ b := fun equal => apart (equal ▸ rfl)
      simp only [AppendTable.append, update_apply, mem_cons, Prod.mk.injEq]
      grind
    edgeRange := by
      intro node outside
      have outside : s.nodes.length ≤ node := outside
      show ((s.proofForest.append a ⟨b, reason, s.proofStamp⟩).append
        b ⟨a, reason, s.proofStamp⟩).lists node = []
      simp only [AppendTable.append]
      rw [update_of_ne (by omega), update_of_ne (by omega)]
      exact inv.edgeRange node outside }

theorem Invariant.nextMerge (inv : Invariant s merges log)
    (next : s.pending = (a, b, reason) :: rest) :
    let before : EufSolver := { s with pending := rest }
    a < s.nodes.length ∧ b < s.nodes.length ∧
      (before.Skipped a b (before.applyMerge a b reason) ∨ ∃ winner loser,
        before.Unites a b reason winner loser (before.applyMerge a b reason)) := by
  obtain ⟨insideA, insideB⟩ := (inv.scheduled (a, b, reason) (by simp [next])).inside
  exact ⟨insideA, insideB, @applyMerge_cases { s with pending := rest } _ _ _ inv.uf insideA insideB⟩

theorem Invariant.applyMerge (inv : Invariant s merges log)
    (next : s.pending = (a, b, reason) :: rest) :
    ∃ log', Invariant (({ s with pending := rest } : EufSolver).applyMerge a b reason) merges
      log' := by
  obtain ⟨-, -, skipped | ⟨winner, loser, unites⟩⟩ := inv.nextMerge next
  · obtain ⟨uf, same, state⟩ := skipped.state
    exact ⟨log, state ▸ inv.skip next skipped.equal same⟩
  · obtain ⟨uf, joined, state⟩ := unites.state
    exact ⟨(a, b, reason) :: log, state ▸ inv.unite next unites.roots unites.apart joined⟩

end Nixie.Euf

/-! Propagation applies every scheduled merge: each union leaves fewer classes to join. -/

namespace Nixie.Euf

namespace EufSolver

def rootCount (s : EufSolver) : Nat :=
  ∑ x ∈ Finset.range s.nodes.length, if s.root x = x then 1 else 0

def useWeight (s : EufSolver) : Nat :=
  ∑ x ∈ Finset.range s.nodes.length, if s.root x = x then (s.useList.lists x).length else 0

/-- Bound for the number of merges still to be applied. -/
def remaining (s : EufSolver) : Nat := s.pending.length + s.rootCount * s.useWeight

theorem remaining_le_fuel (s : EufSolver) : s.remaining ≤ s.propagateFuel := by
  have roots : s.rootCount ≤ s.nodes.length := by
    calc s.rootCount ≤ ∑ _x ∈ Finset.range s.nodes.length, 1 :=
          Finset.sum_le_sum fun x _ => by split <;> omega
      _ = s.nodes.length := by simp
  have weight : s.useWeight ≤
      ((List.range s.nodes.length).map fun x => (s.useList.lists x).length).sum := by
    calc s.useWeight ≤ ∑ x ∈ Finset.range s.nodes.length, (s.useList.lists x).length :=
          Finset.sum_le_sum fun x _ => by split <;> omega
      _ = _ := rfl
  have product := Nat.mul_le_mul roots weight
  show s.pending.length + s.rootCount * s.useWeight ≤ s.pending.length + _
  omega

theorem propagateLoop_run {property : EufSolver → Prop}
    (step : ∀ (s : EufSolver) (a b : Nat) (reason : MergeReason)
      (rest : List (Nat × Nat × MergeReason)), property s → s.pending = (a, b, reason) :: rest →
      property (({ s with pending := rest } : EufSolver).applyMerge a b reason)) :
    ∀ (fuel : Nat) (s : EufSolver), property s → property (propagateLoop fuel s) := by
  intro fuel
  induction fuel with
  | zero => exact fun s holds => holds
  | succ fuel ih =>
    intro s holds
    rw [propagateLoop]
    split
    · exact holds
    · rename_i a b reason rest next
      exact ih _ (step s a b reason rest holds next)

end EufSolver

open EufSolver

variable {s : EufSolver} {merges : List (Nat × Nat × Nat)}
  {log : List (Nat × Nat × MergeReason)} {a b : Nat} {reason : MergeReason}
  {rest : List (Nat × Nat × MergeReason)}

theorem rootCount_unite {uf : UnionFind} {winner loser : Nat}
    (joined : s.uf.Joined uf s.nodes.length winner loser) (fixed : s.root loser = loser)
    (fixedWinner : s.root winner = winner) (apart : winner ≠ loser)
    (lies : loser < s.nodes.length) :
    (∑ x ∈ Finset.range s.nodes.length, if uf.findNoCompress x = x then 1 else 0) + 1 =
      s.rootCount := by
  -- Exactly the loser stops being a representative.
  have lost : (∑ x ∈ Finset.range s.nodes.length, if x = loser then 1 else 0) = 1 := by
    rw [Finset.sum_ite_eq' (Finset.range s.nodes.length) loser fun _ => 1,
      if_pos (Finset.mem_range.mpr lies)]
  calc _ = _ + ∑ x ∈ Finset.range s.nodes.length, (if x = loser then 1 else 0) := by rw [lost]
    _ = s.rootCount := by
      rw [rootCount, ← Finset.sum_add_distrib]
      refine Finset.sum_congr rfl fun x _ => ?_
      rw [joined.find]
      simp only [root] at fixed fixedWinner ⊢
      grind

theorem useWeight_unite {uf : UnionFind} {winner loser : Nat}
    (joined : s.uf.Joined uf s.nodes.length winner loser) (fixed : s.root loser = loser)
    (fixedWinner : s.root winner = winner) (apart : winner ≠ loser)
    (lies : loser < s.nodes.length) (insideWinner : winner < s.nodes.length) :
    (∑ x ∈ Finset.range s.nodes.length, if uf.findNoCompress x = x then
      ((useListPush winner (s.useList.lists loser) s.useList).lists x).length else 0) =
        s.useWeight := by
  -- The winner gains what the loser stops to count.
  have moved : ∀ node, node < s.nodes.length →
      (∑ x ∈ Finset.range s.nodes.length, if x = node then (s.useList.lists loser).length else 0) =
        (s.useList.lists loser).length := by
    intro node bound
    rw [Finset.sum_ite_eq' (Finset.range s.nodes.length) node
      fun _ => (s.useList.lists loser).length, if_pos (Finset.mem_range.mpr bound)]
  have balance : (∑ x ∈ Finset.range s.nodes.length, if uf.findNoCompress x = x then
        ((useListPush winner (s.useList.lists loser) s.useList).lists x).length else 0) +
      (s.useList.lists loser).length = s.useWeight + (s.useList.lists loser).length := by
    calc _ = _ + ∑ x ∈ Finset.range s.nodes.length,
            (if x = loser then (s.useList.lists loser).length else 0) := by rw [moved loser lies]
      _ = s.useWeight + ∑ x ∈ Finset.range s.nodes.length,
            (if x = winner then (s.useList.lists loser).length else 0) := by
          rw [useWeight, ← Finset.sum_add_distrib, ← Finset.sum_add_distrib]
          refine Finset.sum_congr rfl fun x _ => ?_
          rw [joined.find, useListPush_lists]
          simp only [root] at fixed fixedWinner ⊢
          by_cases isLoser : x = loser
          · subst isLoser
            rw [if_pos fixed, if_neg apart, if_pos rfl, if_pos fixed, if_neg (Ne.symm apart)]
            omega
          · by_cases isWinner : x = winner
            · subst isWinner
              simp only [fixedWinner, apart, if_true, if_false, List.length_append]
              omega
            · rw [if_neg isLoser, if_neg isWinner, if_neg isWinner]
              congr 1
              grind
      _ = _ := by rw [moved winner insideWinner]
  omega

theorem Invariant.remaining_lt (inv : Invariant s merges log)
    (next : s.pending = (a, b, reason) :: rest) :
    (({ s with pending := rest } : EufSolver).applyMerge a b reason).remaining < s.remaining := by
  have scheduled : s.pending.length = rest.length + 1 := by rw [next, List.length_cons]
  obtain ⟨insideA, insideB, skipped | ⟨winner, loser, unites⟩⟩ := inv.nextMerge next
  · obtain ⟨uf, same, state⟩ := skipped.state
    have roots : ∀ x, uf.findNoCompress x = s.root x := same.find
    rw [state]
    simp only [remaining, rootCount, useWeight, root, roots]
    omega
  · obtain ⟨uf, joined, state⟩ := unites.state
    have joined : s.uf.Joined uf s.nodes.length winner loser := joined
    have ends_ : s.root loser = loser ∧ s.root winner = winner ∧ winner ≠ loser ∧
        loser < s.nodes.length ∧ winner < s.nodes.length := by
      rcases unites.roots with ⟨rfl, rfl⟩ | ⟨rfl, rfl⟩
      · exact ⟨inv.uf.find_idem b, inv.uf.find_idem a, unites.apart, inv.uf.find_lt insideB,
          inv.uf.find_lt insideA⟩
      · exact ⟨inv.uf.find_idem a, inv.uf.find_idem b, Ne.symm unites.apart,
          inv.uf.find_lt insideA, inv.uf.find_lt insideB⟩
    obtain ⟨fixed, fixedWinner, apart, lies, insideWinner⟩ := ends_
    have scanned := inv.scanned next unites.roots joined
    have fewer := rootCount_unite joined fixed fixedWinner apart lies
    have weight := useWeight_unite joined fixed fixedWinner apart lies insideWinner
    have found := scanUsers_length s.functionProperties s.nodes (s.useList.lists loser)
      { uf := uf, sig := s.sig, buf := [] }
    -- The absorbed use list is one of those that are counted.
    have bounded : (s.useList.lists loser).length ≤ s.useWeight := by
      have single := Finset.single_le_sum (s := Finset.range s.nodes.length)
        (f := fun x => if s.root x = x then (s.useList.lists x).length else 0)
        (fun _ _ => Nat.zero_le _) (Finset.mem_range.mpr lies)
      simp only [fixed, if_true] at single
      exact single
    have count : ((s.scanFrom uf (s.useList.lists loser)).buf.reverse ++ rest).length ≤
        (s.useList.lists loser).length + rest.length := by
      rw [List.length_append, List.length_reverse]
      have found : (s.scanFrom uf (s.useList.lists loser)).buf.length ≤
        0 + (s.useList.lists loser).length := found
      omega
    have after : (({ s with pending := rest } : EufSolver).applyMerge a b reason).remaining =
        ((s.scanFrom uf (s.useList.lists loser)).buf.reverse ++ rest).length +
          (∑ x ∈ Finset.range s.nodes.length, if uf.findNoCompress x = x then 1 else 0) *
            s.useWeight := by
      rw [state, ← weight]
      have images : ∀ x, (({ s with pending := rest } : EufSolver).afterUnion a b reason uf
        winner loser).root x = uf.findNoCompress x := scanned.find
      simp only [remaining, rootCount, useWeight, images]
      rfl
    rw [after, remaining, ← fewer, Nat.succ_mul]
    omega

theorem Invariant.propagate (inv : Invariant s merges log) :
    s.propagate.pending = [] ∧ ∃ log', Invariant s.propagate merges log' := by
  -- The fuel covers the bound, which falls with every merge.
  have run : ∀ (fuel : Nat) (s : EufSolver) (log : List (Nat × Nat × MergeReason)),
      Invariant s merges log → s.remaining ≤ fuel → (propagateLoop fuel s).pending = [] ∧
          ∃ log', Invariant (propagateLoop fuel s) merges log' := by
    intro fuel
    induction fuel with
    | zero =>
      intro s log inv enough
      have none_ : s.pending = [] := by
        apply List.length_eq_zero_iff.mp
        have : s.pending.length ≤ s.remaining := Nat.le_add_right _ _
        omega
      exact ⟨none_, log, inv⟩
    | succ fuel ih =>
      intro s log inv enough
      rw [propagateLoop]
      split
      · rename_i none_
        exact ⟨none_, log, inv⟩
      · rename_i a b reason rest next
        obtain ⟨log', inv'⟩ := inv.applyMerge next
        have fewer := inv.remaining_lt next
        exact ih _ log' inv' (by omega)
  exact run s.propagateFuel s log inv s.remaining_le_fuel

end Nixie.Euf
