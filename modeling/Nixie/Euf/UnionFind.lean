import Mathlib.Algebra.GroupWithZero.Nat
import Mathlib.Algebra.Order.BigOperators.Group.List
import Mathlib.Algebra.Order.Group.Nat
import Nixie.Data.UndoTrail

/-! Union-find with path compression, union by rank, and scopes that undo both. -/

namespace Nixie.Euf

open UndoTrail Function

inductive UndoEntry where
  /-- A losing root was made a child of the winning root. -/
  | union (loser winner : Nat) (rankIncremented : Bool)
  /-- A parent pointer was rewritten by path compression. -/
  | compress (node oldParent : Nat)
  deriving DecidableEq, Repr

/-- The union-find; beyond its size every element is its own root of rank zero. -/
structure UnionFind where
  parent : Nat → Nat
  rank : Nat → Nat
  size : Nat
  trail : List UndoEntry
  /-- Trail length at each level, innermost first; the last is the base level. -/
  trailLimits : List Nat

inductive Root (parent : Nat → Nat) : Nat → Nat → Prop where
  | here {x : Nat} (fixed : parent x = x) : Root parent x x
  /-- Any other element leads to where its parent leads. -/
  | up {x root : Nat} (moves : parent x ≠ x) (rest : Root parent (parent x) root) :
      Root parent x root

namespace UnionFind

def new : UnionFind where
  parent := id
  rank := fun _ => 0
  size := 0
  trail := []
  trailLimits := [0]

def chase (parent : Nat → Nat) : Nat → Nat → Nat
  | 0, x => x
  | fuel + 1, x => if parent x = x then x else chase parent fuel (parent x)

/-- Steps that reach every root: ranks grow along a path, so their sum bounds its length. -/
def fuel (uf : UnionFind) : Nat := ((List.range uf.size).map uf.rank).sum + 1

def findNoCompress (uf : UnionFind) (x : Nat) : Nat := chase uf.parent uf.fuel x

def inScope (uf : UnionFind) : Bool := 1 < uf.trailLimits.length

def redirect (uf : UnionFind) (x root : Nat) : UnionFind :=
  { uf with
    parent := update uf.parent x root
    trail := if uf.inScope then .compress x (uf.parent x) :: uf.trail else uf.trail }

/-- Point every element on the path of `x` to the root. -/
def compress (root : Nat) : Nat → Nat → UnionFind → UnionFind
  | 0, _, uf => uf
  | fuel + 1, x, uf =>
    if uf.parent x = root then uf
    else compress root fuel (uf.parent x) (uf.redirect x root)

def find (uf : UnionFind) (x : Nat) : Nat × UnionFind :=
  let root := uf.findNoCompress x
  (root, compress root uf.fuel x uf)

def union (uf : UnionFind) (x y : Nat) : UnionFind :=
  let rootX := uf.findNoCompress x
  let rootY := uf.findNoCompress y
  if rootX = rootY then uf
  else if uf.rank rootX < uf.rank rootY then
    { uf with
      trail := .union rootX rootY false :: uf.trail
      parent := update uf.parent rootX rootY }
  else if uf.rank rootY < uf.rank rootX then
    { uf with
      trail := .union rootY rootX false :: uf.trail
      parent := update uf.parent rootY rootX }
  else
    -- On a tie the first root wins and its rank increases.
    { uf with
      trail := .union rootY rootX true :: uf.trail
      parent := update uf.parent rootY rootX
      rank := update uf.rank rootX (uf.rank rootX + 1) }

def add (uf : UnionFind) : UnionFind :=
  { uf with
    parent := update uf.parent uf.size uf.size
    rank := update uf.rank uf.size 0
    size := uf.size + 1 }

def push (uf : UnionFind) : UnionFind :=
  { uf with trailLimits := uf.trail.length :: uf.trailLimits }

def undo : UndoEntry → (Nat → Nat) × (Nat → Nat) → (Nat → Nat) × (Nat → Nat)
  | .union loser winner rankIncremented, (parent, rank) =>
    (update parent loser loser,
      if rankIncremented then update rank winner (rank winner - 1) else rank)
  | .compress node oldParent, (parent, rank) => (update parent node oldParent, rank)

def pop (uf : UnionFind) : UnionFind :=
  match uf.trailLimits with
  | [] => uf
  | limit :: limits =>
    let restored := undoEach undo (above limit uf.trail) (uf.parent, uf.rank)
    { uf with
      parent := restored.1
      rank := restored.2
      trail := below limit uf.trail
      trailLimits := limits }

end UnionFind

section

variable {parent : Nat → Nat}

theorem Root.unique {x first second : Nat} (left : Root parent x first)
    (right : Root parent x second) : first = second := by
  -- Both paths take the same step.
  induction left with
  | here fixed =>
    cases right with
    | here _ => rfl
    | up moves _ => exact absurd fixed moves
  | up moves _ ih =>
    cases right with
    | here fixed => exact absurd fixed moves
    | up _ rest => exact ih rest

theorem Root.fixed {x root : Nat} (leads : Root parent x root) : parent root = root := by
  induction leads with
  | here fixed => exact fixed
  | up _ _ ih => exact ih

theorem Root.self {x root : Nat} (leads : Root parent x root) : Root parent root root :=
  .here leads.fixed

theorem Root.rank_lt {rank : Nat → Nat} (climbs : ∀ x, parent x ≠ x → rank x < rank (parent x))
    {x root : Nat} (leads : Root parent x root) : x = root ∨ rank x < rank root := by
  induction leads with
  | here _ => exact .inl rfl
  | @up x root moves _ ih =>
    have first := climbs x moves
    rcases ih with same | later
    · exact .inr (same ▸ first)
    · exact .inr (first.trans later)

theorem Root.redirect {node top : Nat} (target : Root parent node top) {x root : Nat}
    (leads : Root parent x root) : Root (update parent node top) x root := by
  -- The only changed pointer now jumps to the root that its path reaches anyway.
  induction leads with
  | @here x fixed =>
    apply Root.here
    by_cases same : x = node
    · subst same
      rw [update_self]
      exact target.unique (.here fixed)
    · rw [update_of_ne same]
      exact fixed
  | @up x root moves rest ih =>
    by_cases same : x = node
    · subst same
      have ends : root = top := (Root.up moves rest).unique target
      subst ends
      have ne : root ≠ x := by
        intro equal
        exact moves (equal ▸ target.fixed)
      refine .up (by rwa [update_self]) ?_
      rw [update_self]
      apply Root.here
      rw [update_of_ne ne]
      exact target.fixed
    · refine .up (by rwa [update_of_ne same]) ?_
      rw [update_of_ne same]
      exact ih

theorem Root.link {loser winner : Nat} (fixedLoser : parent loser = loser)
    (fixedWinner : parent winner = winner) (apart : winner ≠ loser) {x root : Nat}
    (leads : Root parent x root) :
    Root (update parent loser winner) x (if root = loser then winner else root) := by
  have top : Root (update parent loser winner) winner winner := by
    apply Root.here
    rw [update_of_ne apart]
    exact fixedWinner
  induction leads with
  | @here x fixed =>
    by_cases same : x = loser
    · subst same
      rw [if_pos rfl]
      refine .up (by rwa [update_self]) ?_
      rw [update_self]
      exact top
    · rw [if_neg same]
      apply Root.here
      rw [update_of_ne same]
      exact fixed
  | @up x root moves _ ih =>
    have ne : x ≠ loser := by
      intro equal
      exact moves (equal ▸ fixedLoser)
    refine .up (by rwa [update_of_ne ne]) ?_
    rw [update_of_ne ne]
    exact ih

end

namespace UnionFind

/-- Among the first elements parents stay there and ranks grow towards the root. -/
structure WellFormed (uf : UnionFind) (count : Nat) : Prop where
  size : count ≤ uf.size
  inside : ∀ x, x < count → uf.parent x < count
  outside : ∀ x, count ≤ x → uf.parent x = x
  unranked : ∀ x, count ≤ x → uf.rank x = 0
  climbs : ∀ x, uf.parent x ≠ x → uf.rank x < uf.rank (uf.parent x)

variable {uf : UnionFind} {count : Nat}

theorem WellFormed.rank_lt_fuel (wf : uf.WellFormed count) (x : Nat) : uf.rank x < uf.fuel := by
  by_cases lies : x < uf.size
  · have mem : uf.rank x ∈ (List.range uf.size).map uf.rank :=
      List.mem_map.mpr ⟨x, List.mem_range.mpr lies, rfl⟩
    have := List.le_sum_of_mem mem
    show uf.rank x < ((List.range uf.size).map uf.rank).sum + 1
    omega
  · have := wf.unranked x (by have := wf.size; omega)
    show uf.rank x < ((List.range uf.size).map uf.rank).sum + 1
    omega

theorem WellFormed.chase_root (wf : uf.WellFormed count) :
    ∀ (steps x : Nat), uf.fuel ≤ uf.rank x + steps + 1 →
      Root uf.parent x (chase uf.parent (steps + 1) x) := by
  -- Each step raises the rank, which never reaches the bound.
  intro steps
  induction steps with
  | zero =>
    intro x enough
    rw [chase]
    split
    · rename_i fixed
      exact .here fixed
    · rename_i moves
      have climbs := wf.climbs x moves
      have bound := wf.rank_lt_fuel (uf.parent x)
      omega
  | succ steps ih =>
    intro x enough
    rw [chase]
    split
    · rename_i fixed
      exact .here fixed
    · rename_i moves
      have climbs := wf.climbs x moves
      exact .up moves (ih (uf.parent x) (by omega))

theorem WellFormed.root (wf : uf.WellFormed count) (x : Nat) :
    Root uf.parent x (uf.findNoCompress x) := by
  have pos : uf.fuel = ((List.range uf.size).map uf.rank).sum + 1 := rfl
  rw [findNoCompress, pos]
  exact wf.chase_root _ x (by omega)

theorem WellFormed.find_eq (wf : uf.WellFormed count) {x root : Nat}
    (leads : Root uf.parent x root) : uf.findNoCompress x = root :=
  (wf.root x).unique leads

theorem WellFormed.root_lt (wf : uf.WellFormed count) {x root : Nat}
    (leads : Root uf.parent x root) (lies : x < count) : root < count := by
  induction leads with
  | here _ => exact lies
  | up _ _ ih => exact ih (wf.inside _ lies)

theorem WellFormed.find_lt (wf : uf.WellFormed count) {x : Nat} (lies : x < count) :
    uf.findNoCompress x < count :=
  wf.root_lt (wf.root x) lies

theorem WellFormed.find_idem (wf : uf.WellFormed count) (x : Nat) :
    uf.findNoCompress (uf.findNoCompress x) = uf.findNoCompress x :=
  wf.find_eq (wf.root x).self

theorem WellFormed.find_outside (wf : uf.WellFormed count) {x : Nat} (outside : count ≤ x) :
    uf.findNoCompress x = x :=
  wf.find_eq (.here (wf.outside x outside))

/-- The scopes restore the saved parents and ranks; the base level is never closed. -/
structure Restores (uf : UnionFind) (saved : List (Unit × ((Nat → Nat) × (Nat → Nat)))) :
    Prop where
  scopes : saved.length + 1 = uf.trailLimits.length
  kept : Saved undo (fun _ => id) uf.trailLimits uf.trail (uf.parent, uf.rank) saved

/-- Two union-finds with the same classes that restore the same data. -/
structure SameClasses (uf changed : UnionFind) : Prop where
  find : ∀ x, changed.findNoCompress x = uf.findNoCompress x
  wellFormed : ∀ count, uf.WellFormed count → changed.WellFormed count
  restores : ∀ saved, uf.Restores saved → changed.Restores saved

theorem SameClasses.refl (uf : UnionFind) : uf.SameClasses uf :=
  ⟨fun _ => rfl, fun _ wf => wf, fun _ restores => restores⟩

theorem SameClasses.trans {first second third : UnionFind} (left : first.SameClasses second)
    (right : second.SameClasses third) : first.SameClasses third where
  find := fun x => (right.find x).trans (left.find x)
  wellFormed := fun count wf => right.wellFormed count (left.wellFormed count wf)
  restores := fun saved restores => right.restores saved (left.restores saved restores)

theorem WellFormed.redirect (wf : uf.WellFormed count) {x root : Nat}
    (leads : Root uf.parent x root) : (uf.redirect x root).WellFormed count where
  size := wf.size
  inside := by
    intro other lies
    show update uf.parent x root other < count
    by_cases same : other = x
    · subst same
      rw [update_self]
      exact wf.root_lt leads lies
    · rw [update_of_ne same]
      exact wf.inside other lies
  outside := by
    intro other outside
    show update uf.parent x root other = other
    by_cases same : other = x
    · subst same
      rw [update_self]
      exact leads.unique (.here (wf.outside other outside))
    · rw [update_of_ne same]
      exact wf.outside other outside
  unranked := wf.unranked
  climbs := by
    intro other moves
    show uf.rank other < uf.rank (update uf.parent x root other)
    change update uf.parent x root other ≠ other at moves
    by_cases same : other = x
    · subst same
      rw [update_self] at moves ⊢
      rcases leads.rank_lt wf.climbs with equal | less
      · exact absurd equal.symm moves
      · exact less
    · rw [update_of_ne same] at moves ⊢
      exact wf.climbs other moves

theorem Restores.redirect {saved : List (Unit × ((Nat → Nat) × (Nat → Nat)))}
    (restores : uf.Restores saved) (x root : Nat) : (uf.redirect x root).Restores saved := by
  refine ⟨restores.scopes, ?_⟩
  by_cases opened : uf.inScope = true
  · have undone : undo (.compress x (uf.parent x))
        (update uf.parent x root, uf.rank) = (uf.parent, uf.rank) := by
      simp [undo]
    have kept := restores.kept.record undone
    simpa [UnionFind.redirect, opened] using kept
  · -- At the base level nothing is saved.
    have none_ : saved = [] := by
      have scopes := restores.scopes
      simp only [inScope, decide_eq_true_eq] at opened
      exact List.length_eq_zero_iff.mp (by omega)
    subst none_
    simp [Saved]

theorem compress_sameClasses {root : Nat} (wf : uf.WellFormed count) :
    ∀ (steps x : Nat), Root uf.parent x root → uf.SameClasses (compress root steps x uf) := by
  -- Each redirection keeps where every element leads, also the rest of the path.
  intro steps
  induction steps generalizing uf with
  | zero => exact fun _ _ => .refl uf
  | succ steps ih =>
    intro x leads
    rw [compress]
    split
    · exact .refl uf
    · rename_i ne
      have next : Root uf.parent (uf.parent x) root := by
        cases leads with
        | here fixed => exact absurd fixed ne
        | up _ rest => exact rest
      have one : uf.SameClasses (uf.redirect x root) := by
        refine ⟨fun other => ?_, fun _ wf => wf.redirect leads, fun _ r => r.redirect x root⟩
        exact (wf.redirect leads).find_eq (leads.redirect (wf.root other))
      exact one.trans (ih (wf.redirect leads) (uf.parent x) (leads.redirect next))

theorem find_sameClasses (wf : uf.WellFormed count) (x : Nat) : uf.SameClasses (uf.find x).2 :=
  compress_sameClasses wf uf.fuel x (wf.root x)

theorem WellFormed.link (wf : uf.WellFormed count) {loser winner : Nat} {rank : Nat → Nat}
    {trail : List UndoEntry} (insideLoser : loser < count) (insideWinner : winner < count)
    (fixedWinner : uf.parent winner = winner) (grown : ∀ x, uf.rank x ≤ rank x)
    (kept : ∀ x, x ≠ winner → rank x = uf.rank x) (below_ : rank loser < rank winner) :
    ({ uf with
      trail := trail, parent := update uf.parent loser winner, rank := rank } :
      UnionFind).WellFormed count where
  size := wf.size
  inside := by
    intro other lies
    show update uf.parent loser winner other < count
    by_cases same : other = loser
    · rw [same, update_self]
      exact insideWinner
    · rw [update_of_ne same]
      exact wf.inside other lies
  outside := by
    intro other outside
    show update uf.parent loser winner other = other
    rw [update_of_ne (by omega)]
    exact wf.outside other outside
  unranked := by
    intro other outside
    show rank other = 0
    rw [kept other (by omega)]
    exact wf.unranked other outside
  climbs := by
    intro other moves
    show rank other < rank (update uf.parent loser winner other)
    change update uf.parent loser winner other ≠ other at moves
    by_cases same : other = loser
    · rw [same, update_self]
      exact below_
    · rw [update_of_ne same] at moves ⊢
      have ne : other ≠ winner := by
        intro equal
        exact moves (equal ▸ fixedWinner)
      calc rank other = uf.rank other := kept other ne
        _ < uf.rank (uf.parent other) := wf.climbs other moves
        _ ≤ rank (uf.parent other) := grown _

/-- Two roots are joined into one class, named by the winning one. -/
structure Joined (uf changed : UnionFind) (count winner loser : Nat) : Prop where
  find : ∀ x, changed.findNoCompress x =
    if uf.findNoCompress x = loser then winner else uf.findNoCompress x
  wellFormed : changed.WellFormed count
  restores : ∀ saved, uf.Restores saved → changed.Restores saved

theorem link_joined (wf : uf.WellFormed count) {loser winner : Nat} {rank : Nat → Nat}
    {incremented : Bool} (insideLoser : loser < count) (insideWinner : winner < count)
    (fixedLoser : uf.parent loser = loser) (fixedWinner : uf.parent winner = winner)
    (apart : winner ≠ loser) (below_ : rank loser < rank winner)
    (ranks : rank = if incremented then
      update uf.rank winner (uf.rank winner + 1) else uf.rank) :
    uf.Joined { uf with
      trail := .union loser winner incremented :: uf.trail
      parent := update uf.parent loser winner
      rank := rank } count winner loser := by
  -- The winner's rank grows by at most one, and no other rank changes.
  have grown : ∀ x, uf.rank x ≤ rank x := by
    intro x
    rw [ranks]
    split
    · by_cases same : x = winner
      · subst same
        rw [update_self]
        omega
      · rw [update_of_ne same]
    · exact Nat.le_refl _
  have kept : ∀ x, x ≠ winner → rank x = uf.rank x := by
    intro x ne
    rw [ranks]
    split
    · rw [update_of_ne ne]
    · rfl
  have wf' := @WellFormed.link uf count wf loser winner rank
    (.union loser winner incremented :: uf.trail) insideLoser insideWinner fixedWinner grown kept
    below_
  refine ⟨fun x => ?_, wf', fun saved restores => ⟨restores.scopes, ?_⟩⟩
  · exact wf'.find_eq ((wf.root x).link fixedLoser fixedWinner apart)
  · refine restores.kept.record ?_
    have parents : update (update uf.parent loser winner) loser loser =
        uf.parent := by
      rw [update_idem]
      exact update_eq_self_iff.mpr fixedLoser.symm
    have rank_ : (if incremented then update rank winner (rank winner - 1) else rank) =
        uf.rank := by
      rw [ranks]
      cases incremented <;> simp
    simp only [undo, parents, rank_]

theorem union_joined (wf : uf.WellFormed count) {x y : Nat} (insideX : x < count)
    (insideY : y < count) (apart : uf.findNoCompress x ≠ uf.findNoCompress y) :
    uf.Joined (uf.union x y) count (uf.findNoCompress x) (uf.findNoCompress y) ∨
      uf.Joined (uf.union x y) count (uf.findNoCompress y) (uf.findNoCompress x) := by
  have rootX := (wf.root x).fixed
  have rootY := (wf.root y).fixed
  have ltX := wf.find_lt insideX
  have ltY := wf.find_lt insideY
  unfold union
  dsimp only
  rw [if_neg apart]
  -- The higher rank wins, and the first root does on a tie.
  split
  · rename_i less
    exact .inr (link_joined wf ltX ltY rootX rootY (Ne.symm apart) less (by simp))
  · rename_i notLess
    split
    · rename_i greater
      exact .inl (link_joined wf ltY ltX rootY rootX apart greater (by simp))
    · rename_i notGreater
      refine .inl (link_joined wf ltY ltX rootY rootX apart ?_ (by simp))
      rw [update_self, update_of_ne (Ne.symm apart)]
      omega

theorem add_sameClasses (wf : uf.WellFormed count) : uf.SameClasses uf.add := by
  have parents : uf.add.parent = uf.parent := update_eq_self_iff.mpr (wf.outside _ wf.size).symm
  have ranks : uf.add.rank = uf.rank := update_eq_self_iff.mpr (wf.unranked _ wf.size).symm
  have wellFormed : ∀ other, uf.WellFormed other → uf.add.WellFormed other := by
    intro other inv
    refine ⟨Nat.le_succ_of_le inv.size, ?_, ?_, ?_, ?_⟩
    · rw [parents]
      exact inv.inside
    · rw [parents]
      exact inv.outside
    · rw [ranks]
      exact inv.unranked
    · rw [parents, ranks]
      exact inv.climbs
  refine ⟨fun x => ?_, wellFormed, fun saved restores => ⟨restores.scopes, ?_⟩⟩
  · refine (wellFormed count wf).find_eq ?_
    rw [parents]
    exact wf.root x
  · rw [parents, ranks]
    exact restores.kept

theorem WellFormed.add (wf : uf.WellFormed count) : uf.add.WellFormed (count + 1) := by
  have kept := (add_sameClasses wf).wellFormed count wf
  refine ⟨Nat.succ_le_succ wf.size, ?_, ?_, ?_, kept.climbs⟩
  · intro x lies
    by_cases old : x < count
    · exact Nat.lt_succ_of_lt (kept.inside x old)
    · rw [kept.outside x (by omega)]
      exact lies
  · intro x outside
    exact kept.outside x (by omega)
  · intro x outside
    exact kept.unranked x (by omega)

theorem Restores.push {saved : List (Unit × ((Nat → Nat) × (Nat → Nat)))}
    (restores : uf.Restores saved) : uf.push.Restores (((), uf.parent, uf.rank) :: saved) := by
  refine ⟨by simpa [UnionFind.push] using restores.scopes, ?_⟩
  exact restores.kept.mark rfl

theorem Restores.pop {parent rank : Nat → Nat}
    {older : List (Unit × ((Nat → Nat) × (Nat → Nat)))}
    (restores : uf.Restores (((), parent, rank) :: older)) :
    uf.pop.parent = parent ∧ uf.pop.rank = rank ∧ uf.pop.size = uf.size ∧
      uf.pop.Restores older := by
  cases open_ : uf.trailLimits with
  | nil =>
    have scopes := restores.scopes
    simp [open_] at scopes
  | cons limit limits =>
    have kept := restores.kept
    have scopes := restores.scopes
    rw [open_] at kept scopes
    obtain ⟨gives, rest⟩ := kept.close
    simp only [id] at gives
    simp only [UnionFind.pop, open_, gives, true_and]
    exact ⟨by simpa using scopes, rest⟩

theorem find_congr {other : UnionFind} (wf : uf.WellFormed count)
    (wf' : other.WellFormed count) (parents : other.parent = uf.parent) (x : Nat) :
    other.findNoCompress x = uf.findNoCompress x := by
  refine wf'.find_eq ?_
  rw [parents]
  exact wf.root x

end UnionFind

end Nixie.Euf
