import Mathlib.Data.List.TakeWhile
import Nixie.Sat.Backtrack
import Nixie.Sat.Search.State

/-! Which lists a live clause is registered in, and what a visit of a watcher does to them. -/

namespace Nixie.Sat.Search

open List Function

/-- Every live clause is registered under its first two literals, and nothing else is. -/
structure Attached (s : Solver) : Prop where
  distinct : ∀ {id lits}, s.liveLits id = some lits → lits.Nodup
  below : ∀ {id lits}, s.liveLits id = some lits → ∀ lit ∈ lits, lit.var < s.numVars
  watched : ∀ {id lits}, s.liveLits id = some lits → 3 ≤ lits.length → ∀ lit ∈ lits.take 2,
    ∃ watcher ∈ s.watches lit.negate, watcher.clause = id
  implied : ∀ {id lits}, s.liveLits id = some lits → lits.length = 2 → ∀ lit ∈ lits, ∀ other ∈ lits,
    other ≠ lit → (other, id) ∈ s.binaryGraph lit.negate
  watcher : ∀ {lit : Lit}, ∀ watcher ∈ s.watches lit, watcher.clause < s.clauses.length ∧
    ∀ lits, s.liveLits watcher.clause = some lits →
      3 ≤ lits.length ∧ lit.negate ∈ lits.take 2 ∧ watcher.blocker ∈ lits
  edge : ∀ {lit implied : Lit} {id}, (implied, id) ∈ s.binaryGraph lit →
    ∃ lits, s.liveLits id = some lits ∧ lits.Perm [lit.negate, implied]
  once : ∀ lit, ((s.watches lit).map Watcher.clause).Nodup

section

variable {s : Solver}

theorem Attached.withTrail (attached : Attached s) (trail : Trail) :
    Attached { s with trail := trail } :=
  { attached with }

theorem attached_new (numVars : Nat) : Attached (Solver.new numVars) where
  distinct := fun live => nomatch live
  below := fun live => nomatch live
  watched := fun live => nomatch live
  implied := fun live => nomatch live
  watcher := fun _ mem => nomatch mem
  edge := fun mem => nomatch mem
  once := fun _ => nodup_nil

theorem Attached.replaceList (attached : Attached s) {lit : Lit} {list : List Watcher}
    (once : (list.map Watcher.clause).Nodup)
    (sub : ∀ watcher ∈ list, ∃ old ∈ s.watches lit, old.clause = watcher.clause ∧
      ∀ {lits}, s.liveLits watcher.clause = some lits → watcher.blocker ∈ lits)
    (super : ∀ old ∈ s.watches lit, ∀ {lits}, s.liveLits old.clause = some lits →
      ∃ watcher ∈ list, watcher.clause = old.clause) : Attached (s.withList lit list) where
  distinct := attached.distinct
  below := attached.below
  watched := by
    intro id lits live long other mem
    obtain ⟨old, lies, same⟩ := attached.watched live long other mem
    unfold Solver.withList
    dsimp only
    by_cases here : other.negate = lit
    · -- The new list holds a watcher of the same clause.
      rw [here] at lies ⊢
      rw [update_self]
      have live' : s.liveLits old.clause = some lits := by
        rw [same]
        exact live
      obtain ⟨watcher, new, clause⟩ := super old lies live'
      exact ⟨watcher, new, clause.trans same⟩
    · rw [update_of_ne here]
      exact ⟨old, lies, same⟩
  implied := attached.implied
  watcher := by
    intro other watcher mem
    unfold Solver.withList at mem
    dsimp only at mem
    by_cases here : other = lit
    · subst here
      rw [update_self] at mem
      obtain ⟨old, lies, same, blocker⟩ := sub watcher mem
      obtain ⟨stored, valid⟩ := attached.watcher old lies
      rw [same] at stored valid
      exact ⟨stored, fun lits live => ⟨(valid lits live).1, (valid lits live).2.1, blocker live⟩⟩
    · rw [update_of_ne here] at mem
      exact attached.watcher watcher mem
  edge := attached.edge
  once := by
    intro other
    unfold Solver.withList
    dsimp only
    by_cases here : other = lit
    · subst here
      rw [update_self]
      exact once
    · rw [update_of_ne here]
      exact attached.once other

theorem Attached.reorder (attached : Attached s) {id : Nat} {old new : Clause}
    (live : s.liveLits id = some old) (long : 3 ≤ old.length) (perm : new.Perm old)
    (same : ∀ lit, lit ∈ new.take 2 ↔ lit ∈ old.take 2) : Attached (s.setLits id new) := by
  have after : ∀ {other lits}, (s.setLits id new).liveLits other = some lits →
      (other = id ∧ lits = new) ∨ (other ≠ id ∧ s.liveLits other = some lits) := by
    intro other lits found
    rw [liveLits_setLits] at found
    split at found
    · rename_i here
      rw [live] at found
      exact .inl ⟨here, (Option.some.inj found).symm⟩
    · rename_i apart
      exact .inr ⟨apart, found⟩
  refine ⟨fun found => ?_, fun found => ?_, fun found => ?_, fun found => ?_, fun watcher mem => ?_,
    fun mem => ?_, attached.once⟩
  · rcases after found with ⟨-, rfl⟩ | ⟨-, old_⟩
    · exact perm.nodup_iff.mpr (attached.distinct live)
    · exact attached.distinct old_
  · rcases after found with ⟨-, rfl⟩ | ⟨-, old_⟩
    · exact fun lit mem => attached.below live lit (perm.mem_iff.mp mem)
    · exact attached.below old_
  · rcases after found with ⟨rfl, rfl⟩ | ⟨-, old_⟩
    · exact fun _ lit mem => attached.watched live long lit ((same lit).mp mem)
    · exact attached.watched old_
  · rcases after found with ⟨rfl, rfl⟩ | ⟨-, old_⟩
    · -- A long clause has no implications.
      intro binary
      rw [perm.length_eq] at binary
      omega
    · exact attached.implied old_
  · obtain ⟨stored, valid⟩ := attached.watcher watcher mem
    refine ⟨by simpa [Solver.setLits] using stored, fun lits found => ?_⟩
    rcases after found with ⟨here, rfl⟩ | ⟨-, old_⟩
    · rw [here] at valid
      obtain ⟨-, watch, blocker⟩ := valid _ live
      exact ⟨by rw [perm.length_eq]; exact long, (same _).mpr watch, perm.mem_iff.mpr blocker⟩
    · exact valid _ old_
  · obtain ⟨lits, found, pair⟩ := attached.edge mem
    refine ⟨lits, ?_, pair⟩
    rw [liveLits_setLits]
    split
    · -- An implication comes from a binary clause, and this one is long.
      rename_i here
      rw [here, live] at found
      rw [Option.some.inj found, pair.length_eq] at long
      simp at long
    · exact found

theorem Attached.move (attached : Attached s) {id : Nat} {first other replacement : Lit}
    {front back : Clause} {before after : List Watcher} {watcher : Watcher}
    (live : s.liveLits id = some (first :: other :: (front ++ replacement :: back)))
    (list : s.watches other.negate = before ++ watcher :: after) (clause : watcher.clause = id) :
    Attached (((s.withList other.negate (before ++ after)).setLits id
      (first :: replacement :: (front ++ other :: back))).addWatcher replacement.negate
        { watcher with blocker := first }) := by
  have nodup := attached.distinct live
  have long : 3 ≤ (first :: other :: (front ++ replacement :: back)).length := by
    simp only [length_cons, length_append]
    omega
  -- The two clauses have the same literals.
  have perm : (first :: replacement :: (front ++ other :: back)).Perm
      (first :: other :: (front ++ replacement :: back)) := by
    refine List.Perm.cons _ ?_
    exact (List.Perm.cons _ perm_middle).trans
      ((List.Perm.swap _ _ _).trans (List.Perm.cons _ perm_middle.symm))
  have apart : replacement ≠ other ∧ replacement ≠ first ∧ first ≠ other := by
    simp only [nodup_cons, mem_cons, mem_append, not_or] at nodup
    exact ⟨fun same => nodup.2.1.2.1 same.symm, fun same => nodup.1.2.2.1 same.symm, nodup.1.1⟩
  have moved : replacement.negate ≠ other.negate := fun same =>
    apart.1 (by simpa using congrArg Lit.negate same)
  -- No watcher of the clause is on the list of the replacement yet.
  have fresh : ∀ old ∈ s.watches replacement.negate, old.clause ≠ id := by
    intro old mem same
    have valid := (attached.watcher old mem).2
    rw [same] at valid
    have watch := (valid _ live).2.1
    rw [Lit.negate_negate] at watch
    simp only [take_succ_cons, take_zero, mem_cons, not_mem_nil, or_false] at watch
    rcases watch with same_ | same_
    · exact apart.2.1 same_
    · exact apart.1 same_
  have once := attached.once other.negate
  rw [list, map_append, map_cons, perm_middle.nodup_iff, nodup_cons, clause, ← map_append] at once
  have live_ : ∀ {other_ lits}, (((s.withList other.negate (before ++ after)).setLits id
      (first :: replacement :: (front ++ other :: back))).addWatcher replacement.negate
        { watcher with blocker := first }).liveLits other_ = some lits →
      (other_ = id ∧ lits = first :: replacement :: (front ++ other :: back)) ∨
        (other_ ≠ id ∧ s.liveLits other_ = some lits) := by
    intro other_ lits found
    rw [addWatcher_liveLits, liveLits_setLits] at found
    split at found
    · rename_i here
      rw [withList_liveLits, live] at found
      exact .inl ⟨here, (Option.some.inj found).symm⟩
    · rename_i apart_
      exact .inr ⟨apart_, found⟩
  have watches : (((s.withList other.negate (before ++ after)).setLits id
      (first :: replacement :: (front ++ other :: back))).addWatcher replacement.negate
        { watcher with blocker := first }).watches =
      update (update s.watches other.negate (before ++ after)) replacement.negate
        (s.watches replacement.negate ++ [{ watcher with blocker := first }]) := by
    unfold Solver.addWatcher Solver.setLits Solver.withList
    dsimp only
    rw [update_of_ne moved]
  -- A watcher of another clause stays on its list.
  have stays : ∀ {lit : Lit} {old : Watcher}, old ∈ s.watches lit → old.clause ≠ id →
      old ∈ update (update s.watches other.negate (before ++ after))
        replacement.negate (s.watches replacement.negate ++ [{ watcher with blocker := first }]) lit := by
    intro lit old mem ne
    by_cases new : lit = replacement.negate
    · subst new
      rw [update_self]
      exact mem_append_left _ mem
    · rw [update_of_ne new]
      by_cases here : lit = other.negate
      · subst here
        rw [update_self]
        rw [list] at mem
        rcases mem_append.mp mem with old_ | later
        · exact mem_append_left _ old_
        · rcases mem_cons.mp later with rfl | rest
          · exact absurd clause ne
          · exact mem_append_right _ rest
      · rw [update_of_ne here]
        exact mem
  refine ⟨fun found => ?_, fun found => ?_, fun found => ?_, fun found => ?_, fun {lit} old mem => ?_,
    fun mem => ?_, fun lit => ?_⟩
  · rcases live_ found with ⟨-, rfl⟩ | ⟨-, old⟩
    · exact perm.nodup_iff.mpr nodup
    · exact attached.distinct old
  · rcases live_ found with ⟨-, rfl⟩ | ⟨-, old⟩
    · exact fun lit mem => attached.below live lit (perm.mem_iff.mp mem)
    · exact attached.below old
  · intro long_ lit mem
    rw [watches]
    rcases live_ found with ⟨rfl, rfl⟩ | ⟨ne, old⟩
    · -- The first watch stays, and the second one is the replacement.
      simp only [take_succ_cons, take_zero, mem_cons, not_mem_nil, or_false] at mem
      rcases mem with rfl | rfl
      · obtain ⟨old, lies, same⟩ := attached.watched live long lit (.head _)
        have other_ : lit.negate ≠ other.negate := fun same_ =>
          apart.2.2 (by simpa using congrArg Lit.negate same_)
        have new_ : lit.negate ≠ replacement.negate := fun same_ =>
          apart.2.1 (by simpa using congrArg Lit.negate same_.symm)
        refine ⟨old, ?_, same⟩
        rw [update_of_ne new_, update_of_ne other_]
        exact lies
      · refine ⟨{ watcher with blocker := first }, ?_, clause⟩
        rw [update_self]
        exact mem_append_right _ (.head _)
    · obtain ⟨old_, lies, same⟩ := attached.watched old long_ lit mem
      exact ⟨old_, stays lies (by rw [same]; exact ne), same⟩
  · rcases live_ found with ⟨rfl, rfl⟩ | ⟨-, old⟩
    · intro binary
      rw [perm.length_eq] at binary
      omega
    · exact attached.implied old
  · rw [watches] at mem
    -- The watcher is the moved one, or it was on the list of the literal before.
    have origin : (old = { watcher with blocker := first } ∧ lit = replacement.negate) ∨
        (old ∈ s.watches lit ∧ (lit = other.negate → old.clause ≠ id)) := by
      by_cases new : lit = replacement.negate
      · subst new
        rw [update_self] at mem
        rcases mem_append.mp mem with old_ | last
        · exact .inr ⟨old_, fun _ => fresh old old_⟩
        · exact .inl ⟨mem_singleton.mp last, rfl⟩
      · rw [update_of_ne new] at mem
        by_cases here : lit = other.negate
        · subst here
          rw [update_self] at mem
          refine .inr ⟨?_, fun _ same => once.1 (same ▸ mem_map_of_mem mem)⟩
          rw [list]
          rcases mem_append.mp mem with early | late
          · exact mem_append_left _ early
          · exact mem_append_right _ (.tail _ late)
        · rw [update_of_ne here] at mem
          exact .inr ⟨mem, fun same => absurd same here⟩
    rcases origin with ⟨rfl, rfl⟩ | ⟨lies, elsewhere⟩
    · refine ⟨?_, fun lits found => ?_⟩
      · have stored := liveLits_lt live
        rw [← clause] at stored
        simpa [Solver.addWatcher, Solver.setLits, Solver.withList] using stored
      · rcases live_ found with ⟨-, rfl⟩ | ⟨ne, -⟩
        · exact ⟨by rw [perm.length_eq]; exact long, by simp, .head _⟩
        · exact absurd clause ne
    · obtain ⟨stored, valid⟩ := attached.watcher old lies
      refine ⟨by simpa [Solver.addWatcher, Solver.setLits, Solver.withList] using stored,
        fun lits found => ?_⟩
      rcases live_ found with ⟨here, rfl⟩ | ⟨-, old_⟩
      · -- Another watcher of the clause watches its first literal.
        rw [here] at valid
        obtain ⟨-, watch, blocker⟩ := valid _ live
        refine ⟨by rw [perm.length_eq]; exact long, ?_, perm.mem_iff.mpr blocker⟩
        simp only [take_succ_cons, take_zero, mem_cons, not_mem_nil, or_false] at watch ⊢
        rcases watch with same | same
        · exact .inl same
        · have back_ : lit = other.negate := by rw [← same, Lit.negate_negate]
          exact absurd here (elsewhere back_)
      · exact valid _ old_
  · obtain ⟨lits, found, pair⟩ := attached.edge mem
    refine ⟨lits, ?_, pair⟩
    rw [addWatcher_liveLits, liveLits_setLits]
    split
    · rename_i here
      rw [here, live] at found
      rw [Option.some.inj found, pair.length_eq] at long
      simp at long
    · exact found
  · rw [watches]
    by_cases new : lit = replacement.negate
    · subst new
      rw [update_self, map_append, map_cons, map_nil]
      refine nodup_append.mpr ⟨attached.once _, nodup_singleton _, ?_⟩
      intro number mem last equal same
      rw [mem_singleton.mp equal, clause] at same
      obtain ⟨old, lies, rfl⟩ := mem_map.mp mem
      exact fresh old lies same
    · rw [update_of_ne new]
      by_cases here : lit = other.negate
      · subst here
        rw [update_self]
        exact once.2
      · rw [update_of_ne here]
        exact attached.once lit

theorem mem_addWatcher {lit other : Lit} {watcher old : Watcher} :
    old ∈ (s.addWatcher lit watcher).watches other ↔
      old ∈ s.watches other ∨ (other = lit ∧ old = watcher) := by
  unfold Solver.addWatcher
  dsimp only
  by_cases here : other = lit
  · subst here
    simp
  · simp [here]

theorem mem_addEdge {lit implied other : Lit} {id : Nat} {edge : Lit × Nat} :
    edge ∈ (s.addEdge lit implied id).binaryGraph other ↔
      edge ∈ s.binaryGraph other ∨ (other = lit ∧ edge = (implied, id)) := by
  unfold Solver.addEdge
  dsimp only
  by_cases here : other = lit
  · subst here
    simp
  · simp [here]

theorem liveLits_storeClause (clause : StoredClause) (id : Nat) :
    (s.storeClause clause).liveLits id = if id = s.clauses.length then
      (if clause.deleted then none else some clause.lits) else s.liveLits id := by
  have clauses : (s.storeClause clause).clauses = s.clauses ++ [clause] := by
    unfold Solver.storeClause Solver.attachWatchers Solver.addEdge Solver.addWatcher
    dsimp only
    split
    · split <;> rfl
    · rfl
  unfold Solver.liveLits
  rw [clauses]
  by_cases last : id = s.clauses.length
  · rw [if_pos last, last]
    simp
  · rw [if_neg last]
    rcases Nat.lt_or_gt_of_ne last with small | large
    · rw [getElem?_append_left small]
    · rw [getElem?_eq_none (by simp; omega), getElem?_eq_none (by omega)]

theorem Attached.store (attached : Attached s) {clause : StoredClause}
    (alive : clause.deleted = false) (nodup : clause.lits.Nodup)
    (below : ∀ lit ∈ clause.lits, lit.var < s.numVars) : Attached (s.storeClause clause) := by
  have live : ∀ {id lits}, (s.storeClause clause).liveLits id = some lits →
      (id = s.clauses.length ∧ lits = clause.lits) ∨
        (id < s.clauses.length ∧ s.liveLits id = some lits) := by
    intro id lits found
    rw [liveLits_storeClause, alive] at found
    split at found
    · exact .inl ⟨‹_›, by simpa using found.symm⟩
    · exact .inr ⟨liveLits_lt found, found⟩
  have kept : ∀ {id lits}, s.liveLits id = some lits →
      (s.storeClause clause).liveLits id = some lits := by
    intro id lits found
    have small := liveLits_lt found
    rw [liveLits_storeClause, if_neg (Nat.ne_of_lt small)]
    exact found
  have fields : (s.storeClause clause).numVars = s.numVars ∧
      (s.storeClause clause).clauses.length = s.clauses.length + 1 := by
    unfold Solver.storeClause Solver.attachWatchers Solver.addEdge Solver.addWatcher
    dsimp only
    split
    · split <;> exact ⟨rfl, by simp⟩
    · exact ⟨rfl, by simp⟩
  -- The new entries: watchers of a long clause, implications of a binary one.
  have watches : ∀ {lit old}, old ∈ (s.storeClause clause).watches lit ↔
      old ∈ s.watches lit ∨ ∃ l0 l1 rest, clause.lits = l0 :: l1 :: rest ∧ rest ≠ [] ∧
        ((lit = l0.negate ∧ old = ⟨s.clauses.length, l1⟩) ∨
          (lit = l1.negate ∧ old = ⟨s.clauses.length, l0⟩)) := by
    intro lit old
    unfold Solver.storeClause Solver.attachWatchers
    dsimp only
    match lits : clause.lits with
    | [] => simp
    | [only] => simp
    | [l0, l1] => simp [Solver.addEdge, lits]
    | l0 :: l1 :: l2 :: rest => simp [mem_addWatcher, lits, or_assoc, eq_comm]
  have edges : ∀ {lit edge}, edge ∈ (s.storeClause clause).binaryGraph lit ↔
      edge ∈ s.binaryGraph lit ∨ ∃ l0 l1, clause.lits = [l0, l1] ∧
        ((lit = l0.negate ∧ edge = (l1, s.clauses.length)) ∨
          (lit = l1.negate ∧ edge = (l0, s.clauses.length))) := by
    intro lit edge
    unfold Solver.storeClause Solver.attachWatchers
    dsimp only
    match lits : clause.lits with
    | [] => simp
    | [only] => simp
    | [l0, l1] => simp [mem_addEdge, lits, or_assoc]
    | l0 :: l1 :: l2 :: rest => simp [Solver.addWatcher, lits]
  refine ⟨fun found => ?_, fun found => ?_, fun found long lit mem => ?_,
    fun found binary lit mem other lies apart => ?_, fun {lit} watcher mem => ?_,
    fun {lit implied id} mem => ?_, fun lit => ?_⟩
  · rcases live found with ⟨-, rfl⟩ | ⟨-, old⟩
    · exact nodup
    · exact attached.distinct old
  · rw [fields.1]
    rcases live found with ⟨-, rfl⟩ | ⟨-, old⟩
    · exact below
    · exact attached.below old
  · rcases live found with ⟨rfl, rfl⟩ | ⟨-, old⟩
    · match lits : clause.lits with
      | [] | [_] | [_, _] =>
        rw [lits] at long
        simp at long
      | l0 :: l1 :: l2 :: rest =>
        rw [lits] at mem
        simp only [take_succ_cons, take_zero, mem_cons, not_mem_nil, or_false] at mem
        rcases mem with rfl | rfl
        · exact ⟨_, watches.mpr (.inr ⟨_, _, _, lits, by simp, .inl ⟨rfl, rfl⟩⟩), rfl⟩
        · exact ⟨_, watches.mpr (.inr ⟨_, _, _, lits, by simp, .inr ⟨rfl, rfl⟩⟩), rfl⟩
    · obtain ⟨watcher, lies, same⟩ := attached.watched old long lit mem
      exact ⟨watcher, watches.mpr (.inl lies), same⟩
  · rcases live found with ⟨rfl, rfl⟩ | ⟨-, old⟩
    · obtain ⟨l0, l1, lits⟩ := length_eq_two.mp binary
      rw [lits] at mem lies
      simp only [mem_cons, not_mem_nil, or_false] at mem lies
      refine edges.mpr (.inr ⟨l0, l1, lits, ?_⟩)
      rcases mem with rfl | rfl <;> rcases lies with rfl | rfl
      · exact absurd rfl apart
      · exact .inl ⟨rfl, rfl⟩
      · exact .inr ⟨rfl, rfl⟩
      · exact absurd rfl apart
    · exact edges.mpr (.inl (attached.implied old binary lit mem other lies apart))
  · rw [fields.2]
    rcases watches.mp mem with old | ⟨l0, l1, rest, lits, long, new⟩
    · obtain ⟨stored, valid⟩ := attached.watcher watcher old
      refine ⟨by omega, fun lits found => ?_⟩
      rcases live found with ⟨fresh, -⟩ | ⟨-, old_⟩
      · omega
      · exact valid _ old_
    · -- A new watcher is one of the two of the new clause.
      have number : watcher.clause = s.clauses.length := by
        rcases new with ⟨-, rfl⟩ | ⟨-, rfl⟩ <;> rfl
      refine ⟨by omega, fun lits' found => ?_⟩
      rcases live found with ⟨-, rfl⟩ | ⟨small, -⟩
      · rw [lits]
        have size : 3 ≤ (l0 :: l1 :: rest).length := by
          have pos := length_pos_iff.mpr long
          simp only [length_cons]
          omega
        rcases new with ⟨rfl, rfl⟩ | ⟨rfl, rfl⟩
        · exact ⟨size, by simp, by simp⟩
        · exact ⟨size, by simp, by simp⟩
      · omega
  · rcases edges.mp mem with old | ⟨l0, l1, lits, new⟩
    · obtain ⟨lits, found, pair⟩ := attached.edge old
      exact ⟨lits, kept found, pair⟩
    · refine ⟨clause.lits, ?_, ?_⟩
      · have number : id = s.clauses.length := by
          rcases new with ⟨-, same⟩ | ⟨-, same⟩ <;> exact congrArg Prod.snd same
        rw [liveLits_storeClause, if_pos number, alive]
        rfl
      · rw [lits]
        rcases new with ⟨rfl, same⟩ | ⟨rfl, same⟩
        · obtain ⟨rfl, -⟩ := Prod.mk.inj same
          rw [Lit.negate_negate]
        · obtain ⟨rfl, -⟩ := Prod.mk.inj same
          rw [Lit.negate_negate]
          exact List.Perm.swap _ _ _
  · -- The new identifier is on no list yet, and the two watched literals differ.
    have fresh : ∀ number ∈ (s.watches lit).map Watcher.clause, number ≠ s.clauses.length := by
      intro number mem
      obtain ⟨watcher, lies, rfl⟩ := mem_map.mp mem
      exact Nat.ne_of_lt (attached.watcher watcher lies).1
    have plus : ∀ {blocker : Lit}, ((s.watches lit ++
        [({ clause := s.clauses.length, blocker := blocker } : Watcher)]).map
          Watcher.clause).Nodup := by
      intro blocker
      rw [map_append, map_cons, map_nil]
      refine nodup_append.mpr ⟨attached.once lit, nodup_singleton _, ?_⟩
      intro number mem last equal
      rw [mem_singleton.mp equal]
      exact fresh number mem
    unfold Solver.storeClause Solver.attachWatchers
    dsimp only
    match lits : clause.lits with
    | [] | [_] => exact attached.once lit
    | [l0, l1] =>
      dsimp only
      rw [if_pos (by simp [lits])]
      exact attached.once lit
    | l0 :: l1 :: l2 :: rest =>
      dsimp only
      rw [if_neg (by simp [lits])]
      have apart : l1.negate ≠ l0.negate := by
        intro same
        rw [lits] at nodup
        have equal : l1 = l0 := by simpa using congrArg Lit.negate same
        simp [equal] at nodup
      unfold Solver.addWatcher
      dsimp only
      rw [update_of_ne apart]
      by_cases second : lit = l1.negate
      · subst second
        rw [update_self]
        exact plus
      · rw [update_of_ne second]
        by_cases first : lit = l0.negate
        · subst first
          rw [update_self]
          exact plus
        · rw [update_of_ne first]
          exact attached.once lit

theorem mem_detach (attached : Attached s) {id : Nat} {lits : Clause}
    (live : s.liveLits id = some lits) (long : 3 ≤ lits.length) {lit : Lit} {watcher : Watcher} :
    watcher ∈ (s.detach id).watches lit ↔ watcher ∈ s.watches lit ∧ watcher.clause ≠ id := by
  match lits with
  | [] | [_] | [_, _] => simp at long
  | l0 :: l1 :: l2 :: rest =>
    -- A watcher of the clause is on one of the two lists.
    have only : watcher ∈ s.watches lit → watcher.clause = id → lit = l0.negate ∨ lit = l1.negate := by
      intro mem same
      have valid := (attached.watcher watcher mem).2
      rw [same] at valid
      have watch := (valid _ live).2.1
      simp only [take_succ_cons, take_zero, mem_cons, not_mem_nil, or_false] at watch
      exact watch.imp (fun same => by rw [← same, Lit.negate_negate])
        fun same => by rw [← same, Lit.negate_negate]
    unfold Solver.detach Solver.withList
    rw [live]
    dsimp only
    by_cases second : lit = l1.negate
    · subst second
      rw [update_self, mem_filter, decide_eq_true_eq]
      by_cases first : l1.negate = l0.negate
      · rw [first, update_self, mem_filter, decide_eq_true_eq, and_assoc, and_self]
      · rw [update_of_ne first]
    · rw [update_of_ne second]
      by_cases first : lit = l0.negate
      · subst first
        rw [update_self, mem_filter, decide_eq_true_eq]
      · rw [update_of_ne first]
        refine ⟨fun mem => ⟨mem, fun same => ?_⟩, And.left⟩
        rcases only mem same with here | here
        · exact first here
        · exact second here

theorem Attached.remove (attached : Attached s) {id : Nat} {lits : Clause}
    (gone : s.liveLits id = some lits) (long : 3 ≤ lits.length) : Attached (s.removeClause id) := by
  have live : ∀ other, (s.removeClause id).liveLits other =
      if other = id then none else s.liveLits other := by
    intro other
    unfold Solver.removeClause Solver.liveLits
    dsimp only
    rw [getElem?_modify]
    by_cases same : other = id
    · rw [if_pos same, same]
      cases s.clauses[id]? <;> simp
    · rw [if_neg same]
      simp [Ne.symm same]
  have old : ∀ {other lits}, (s.removeClause id).liveLits other = some lits →
      other ≠ id ∧ s.liveLits other = some lits := by
    intro other lits found
    rw [live] at found
    split at found
    · cases found
    · exact ⟨‹_›, found⟩
  have fields : (s.removeClause id).numVars = s.numVars ∧
      (s.removeClause id).binaryGraph = s.binaryGraph := by
    unfold Solver.removeClause Solver.detach Solver.withList
    dsimp only
    split <;> exact ⟨rfl, rfl⟩
  have watches : ∀ {lit watcher}, watcher ∈ (s.removeClause id).watches lit ↔
      watcher ∈ s.watches lit ∧ watcher.clause ≠ id := mem_detach attached gone long
  refine ⟨fun found => attached.distinct (old found).2, fun found => ?_,
    fun found long_ lit mem => ?_, fun found => ?_, fun {lit} watcher mem => ?_,
    fun {lit implied other} mem => ?_, fun lit => ?_⟩
  · rw [fields.1]
    exact attached.below (old found).2
  · obtain ⟨apart, found_⟩ := old found
    obtain ⟨watcher, lies, same⟩ := attached.watched found_ long_ lit mem
    exact ⟨watcher, watches.mpr ⟨lies, same ▸ apart⟩, same⟩
  · rw [fields.2]
    exact attached.implied (old found).2
  · obtain ⟨lies, apart⟩ := watches.mp mem
    obtain ⟨stored, valid⟩ := attached.watcher watcher lies
    refine ⟨by simpa [Solver.removeClause] using stored, fun lits found => ?_⟩
    exact valid _ (old found).2
  · rw [fields.2] at mem
    obtain ⟨lits', found, pair⟩ := attached.edge mem
    refine ⟨lits', ?_, pair⟩
    rw [live]
    split
    · -- The clause of an implication is binary, and the retired one is long.
      rename_i here
      rw [here, gone] at found
      rw [Option.some.inj found, pair.length_eq] at long
      simp at long
    · exact found
  · -- The lists only lose entries.
    have sub : ((s.removeClause id).watches lit).Sublist (s.watches lit) := by
      unfold Solver.removeClause Solver.detach Solver.withList
      dsimp only
      split
      · rename_i l0 l1 rest _
        dsimp only
        by_cases second : lit = l1.negate
        · subst second
          rw [update_self]
          by_cases first : l1.negate = l0.negate
          · rw [first, update_self]
            exact filter_sublist.trans filter_sublist
          · rw [update_of_ne first]
            exact filter_sublist
        · rw [update_of_ne second]
          by_cases first : lit = l0.negate
          · subst first
            rw [update_self]
            exact filter_sublist
          · rw [update_of_ne first]
      · exact List.Sublist.refl _
    exact (attached.once lit).sublist (sub.map Watcher.clause)

end

end Nixie.Sat.Search
