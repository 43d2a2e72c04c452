import Nixie.Euf.UnionFind

/-! Runs of the union-find: its classes are those of the open scopes, and a pop restores them. -/

namespace Nixie.Euf.UnionFind

open List Relation

inductive Op where
  | union (x y : Nat)
  | find (x : Nat)
  | add
  | push
  | pop
  deriving DecidableEq, Repr

/-- A union-find with the unions of its open scopes, and both as they were at each push. -/
structure Session where
  uf : UnionFind
  unions : List (Nat × Nat)
  /-- Innermost scope first. -/
  opened : List (UnionFind × List (Nat × Nat))

def sized (n : Nat) : UnionFind := { new with size := n }

def Session.start (n : Nat) : Session := { uf := sized n, unions := [], opened := [] }

/-- One operation; none where the code reads out of bounds, and at a pop that matches no push. -/
def Session.step (s : Session) : Op → Option Session
  | .union x y =>
      if x < s.uf.size ∧ y < s.uf.size then
        some { s with uf := s.uf.union x y, unions := (x, y) :: s.unions }
      else none
  | .find x =>
      if x < s.uf.size then some { s with uf := (s.uf.find x).2 } else none
  | .add => some { s with uf := s.uf.add }
  | .push =>
      some { s with
        uf := s.uf.push
        opened := (s.uf, s.unions) :: s.opened }
  | .pop =>
      match s.opened with
      | [] => none
      | (_, unions) :: older => some { uf := s.uf.pop, unions := unions, opened := older }

/-- Two elements are linked by a chain of unions. -/
def Connected (unions : List (Nat × Nat)) : Nat → Nat → Prop := EqvGen fun x y => (x, y) ∈ unions

/-- The classes are those that the unions generate. -/
structure Partition (uf : UnionFind) (unions : List (Nat × Nat)) : Prop where
  wellFormed : uf.WellFormed uf.size
  rooted : ∀ x, Connected unions x (uf.findNoCompress x)
  joined : ∀ pair ∈ unions, uf.findNoCompress pair.1 = uf.findNoCompress pair.2

/-- The classes are right now and at every push, and the scopes restore what they saved. -/
structure Session.Sound (s : Session) : Prop where
  partition : s.uf.Partition s.unions
  restores : s.uf.Restores
    (s.opened.map fun before => ((), before.1.parent, before.1.rank))
  outer : ∀ before ∈ s.opened, before.1.Partition before.2 ∧ before.1.size ≤ s.uf.size

variable {uf changed before : UnionFind} {unions : List (Nat × Nat)} {x y : Nat}

theorem compress_enough {count root : Nat} (wf : uf.WellFormed count) (more : Nat) :
    ∀ (steps : Nat) {x : Nat}, Root uf.parent x root → uf.rank root ≤ uf.rank x + steps →
      compress root (steps + more) x uf = compress root steps x uf := by
  -- Each step climbs in rank, so the walk stands at the root before the steps run out.
  intro steps
  induction steps generalizing uf with
  | zero =>
    intro x leads enough
    have arrived : x = root := (leads.rank_lt wf.climbs).resolve_right (by omega)
    subst arrived
    cases more with
    | zero => rfl
    | succ more => simp [compress, leads.fixed]
  | succ steps ih =>
    intro x leads enough
    rw [Nat.add_right_comm, compress, compress]
    split
    · rfl
    · rename_i ne
      cases leads with
      | here fixed => exact absurd fixed ne
      | up moves rest =>
        have climbs := wf.climbs x moves
        have leads := Root.up moves rest
        refine ih (wf.redirect leads) (leads.redirect rest) ?_
        show uf.rank root ≤ uf.rank (uf.parent x) + steps
        omega

theorem compress_size {root : Nat} :
    ∀ (steps x : Nat) (uf : UnionFind), (compress root steps x uf).size = uf.size := by
  intro steps
  induction steps with
  | zero => exact fun _ _ => rfl
  | succ steps ih =>
    intro x uf
    rw [compress]
    split
    · rfl
    · exact ih _ _

theorem union_size : (uf.union x y).size = uf.size := by
  unfold union
  dsimp only
  split_ifs <;> rfl

theorem Partition.same_iff (partition : uf.Partition unions) :
    uf.findNoCompress x = uf.findNoCompress y ↔ Connected unions x y := by
  constructor
  · intro same
    have right := (partition.rooted y).symm
    rw [← same] at right
    exact (partition.rooted x).trans _ _ _ right
  · intro connected
    induction connected with
    | rel x y made => exact partition.joined (x, y) made
    | refl x => rfl
    | symm x y _ ih => exact ih.symm
    | trans x y z _ _ first second => exact first.trans second

theorem Partition.congr (partition : uf.Partition unions)
    (wf : changed.WellFormed changed.size)
    (same : ∀ x, changed.findNoCompress x = uf.findNoCompress x) : changed.Partition unions where
  wellFormed := wf
  rooted := fun x => same x ▸ partition.rooted x
  joined := by
    intro pair mem
    rw [same, same]
    exact partition.joined pair mem

theorem WellFormed.restored (wf : before.WellFormed before.size) (grown : before.size ≤ uf.size)
    (parents : uf.parent = before.parent) (ranks : uf.rank = before.rank) :
    uf.WellFormed uf.size where
  size := Nat.le_refl _
  inside := by
    intro x lies
    rw [parents]
    -- Elements added since the push are still alone.
    by_cases old : x < before.size
    · exact (wf.inside x old).trans_le grown
    · rw [wf.outside x (by omega)]
      exact lies
  outside := fun x outside => parents ▸ wf.outside x (grown.trans outside)
  unranked := fun x outside => ranks ▸ wf.unranked x (grown.trans outside)
  climbs := by
    rw [parents, ranks]
    exact wf.climbs

theorem Partition.link {winner loser : Nat} (partition : uf.Partition unions)
    (joined : uf.Joined changed uf.size winner loser) (size : changed.size = uf.size)
    (linked : Connected ((x, y) :: unions) loser winner)
    (same : changed.findNoCompress x = changed.findNoCompress y) :
    changed.Partition ((x, y) :: unions) where
  wellFormed := size ▸ joined.wellFormed
  rooted := by
    intro z
    have old : Connected ((x, y) :: unions) z (uf.findNoCompress z) :=
      (partition.rooted z).mono fun _ _ => mem_cons_of_mem _
    rw [joined.find]
    split
    · rename_i moved
      exact (moved ▸ old).trans _ _ _ linked
    · exact old
  joined := by
    intro pair mem
    rcases mem_cons.mp mem with rfl | mem
    · exact same
    · rw [joined.find, joined.find, partition.joined pair mem]

theorem Partition.union (partition : uf.Partition unions) (insideX : x < uf.size)
    (insideY : y < uf.size) : (uf.union x y).Partition ((x, y) :: unions) := by
  have old : ∀ z, Connected ((x, y) :: unions) z (uf.findNoCompress z) := fun z =>
    (partition.rooted z).mono fun _ _ => mem_cons_of_mem _
  by_cases same : uf.findNoCompress x = uf.findNoCompress y
  · -- Nothing changes, and the two elements were already in one class.
    have unchanged : uf.union x y = uf := by simp [UnionFind.union, same]
    rw [unchanged]
    exact ⟨partition.wellFormed, old, forall_mem_cons.mpr ⟨same, partition.joined⟩⟩
  · have linked : Connected ((x, y) :: unions) (uf.findNoCompress x) (uf.findNoCompress y) :=
      ((old x).symm.trans _ _ _ (.rel x y mem_cons_self)).trans _ _ _ (old y)
    rcases union_joined partition.wellFormed insideX insideY same with joined | joined
    · exact partition.link joined union_size linked.symm (by simp [joined.find])
    · exact partition.link joined union_size linked (by simp [joined.find])

theorem sized_partition (n : Nat) : (sized n).Partition [] := by
  have wf : (sized n).WellFormed (sized n).size :=
    ⟨Nat.le_refl _, fun _ lies => lies, fun _ _ => rfl, fun _ _ => rfl,
      fun _ moves => absurd rfl moves⟩
  refine ⟨wf, fun x => ?_, fun _ mem => nomatch mem⟩
  rw [wf.find_eq (.here rfl)]
  exact .refl x

theorem Session.Sound.popped {s : Session} {older : List (UnionFind × List (Nat × Nat))}
    (sound : s.Sound) (innermost : s.opened = (before, unions) :: older) :
    s.uf.pop.parent = before.parent ∧ s.uf.pop.rank = before.rank ∧
      Session.Sound { uf := s.uf.pop, unions := unions, opened := older } := by
  have restores := sound.restores
  have outer := sound.outer
  rw [innermost] at restores outer
  obtain ⟨parents, ranks, size, restores⟩ := restores.pop
  obtain ⟨⟨partition, grown⟩, outer⟩ := forall_mem_cons.mp outer
  have wf := partition.wellFormed.restored (size ▸ grown) parents ranks
  refine ⟨parents, ranks, partition.congr wf fun x => wf.find_eq ?_, restores, ?_⟩
  · rw [parents]
    exact partition.wellFormed.root x
  · exact fun scope mem => ⟨(outer scope mem).1, size ▸ (outer scope mem).2⟩

theorem Session.Sound.step {s next : Session} {op : Op} (sound : s.Sound)
    (stepped : s.step op = some next) : next.Sound := by
  have wf := sound.partition.wellFormed
  cases op with
  | union x y =>
    simp only [Session.step, Option.ite_none_right_eq_some, Option.some.injEq] at stepped
    obtain ⟨⟨insideX, insideY⟩, rfl⟩ := stepped
    refine ⟨sound.partition.union insideX insideY, ?_, ?_⟩
    · by_cases same : s.uf.findNoCompress x = s.uf.findNoCompress y
      · simpa [union, same] using sound.restores
      · rcases union_joined wf insideX insideY same with joined | joined
        · exact joined.restores _ sound.restores
        · exact joined.restores _ sound.restores
    · exact @union_size s.uf x y ▸ sound.outer
  | find x =>
    simp only [Session.step, Option.ite_none_right_eq_some, Option.some.injEq] at stepped
    obtain ⟨-, rfl⟩ := stepped
    have same := find_sameClasses wf x
    have size : (s.uf.find x).2.size = s.uf.size := compress_size ..
    refine ⟨sound.partition.congr ?_ same.find, same.restores _ sound.restores, size ▸ sound.outer⟩
    exact size ▸ same.wellFormed _ wf
  | add =>
    cases stepped
    have same := add_sameClasses wf
    refine ⟨sound.partition.congr wf.add same.find, same.restores _ sound.restores, ?_⟩
    exact fun scope mem => (sound.outer scope mem).imp_right Nat.le_succ_of_le
  | push =>
    cases stepped
    have kept : s.uf.push.WellFormed s.uf.push.size :=
      { wf with }
    refine ⟨sound.partition.congr kept fun _ => rfl, sound.restores.push, ?_⟩
    exact forall_mem_cons.mpr ⟨⟨sound.partition, Nat.le_refl _⟩, sound.outer⟩
  | pop =>
    cases innermost : s.opened with
    | nil => simp [Session.step, innermost] at stepped
    | cons scope older =>
      simp only [Session.step, innermost, Option.some.injEq] at stepped
      exact stepped ▸ (sound.popped innermost).2.2

theorem Session.Sound.run {ops : List Op} {s last : Session} (sound : s.Sound)
    (ran : ops.foldlM Session.step s = some last) : last.Sound := by
  induction ops generalizing s with
  | nil => exact Option.some.inj ran ▸ sound
  | cons op ops ih =>
    rw [foldlM_cons] at ran
    obtain ⟨next, stepped, rest⟩ := Option.bind_eq_some_iff.mp ran
    exact ih (sound.step stepped) rest

/-- In every run, looking an element up ends at its root and moves no class, the classes are those
of the unions in open scopes, and a pop gives back the parents and ranks at the matching push. -/
theorem session_faithful {n : Nat} {ops : List Op} {s : Session}
    (ran : ops.foldlM Session.step (.start n) = some s) :
    (∀ x, Root s.uf.parent x (s.uf.find x).1 ∧ (s.uf.find x).1 = s.uf.findNoCompress x ∧
      (∀ y, (s.uf.find x).2.findNoCompress y = s.uf.findNoCompress y) ∧
      ∀ more, compress (s.uf.find x).1 (s.uf.fuel + more) x s.uf = (s.uf.find x).2) ∧
    (∀ x y, s.uf.findNoCompress x = s.uf.findNoCompress y ↔ Connected s.unions x y) ∧
    ∀ before unions older, s.opened = (before, unions) :: older →
      s.uf.pop.parent = before.parent ∧ s.uf.pop.rank = before.rank := by
  have start : (Session.start n).Sound :=
    ⟨sized_partition n, ⟨rfl, trivial⟩, fun _ mem => nomatch mem⟩
  have sound := start.run ran
  have wf := sound.partition.wellFormed
  refine ⟨fun x => ⟨wf.root x, rfl, (find_sameClasses wf x).find, fun more => ?_⟩,
    fun x y => sound.partition.same_iff, fun before unions older innermost => ?_⟩
  · have bound : s.uf.rank (s.uf.find x).1 < s.uf.fuel := wf.rank_lt_fuel _
    exact compress_enough wf more _ (wf.root x) (by omega)
  · obtain ⟨parents, ranks, -⟩ := sound.popped innermost
    exact ⟨parents, ranks⟩

def scopedUnion : List Op := [.union 0 1, .push, .union 1 2, .find 2, .pop]

theorem scopedUnion_faithful : ∃ s, scopedUnion.foldlM Session.step (.start 3) = some s ∧
    (s.uf.findNoCompress 0 = s.uf.findNoCompress 2 ↔ Connected s.unions 0 2) :=
  ⟨_, rfl, (@session_faithful 3 scopedUnion _ rfl).2.1 0 2⟩

end Nixie.Euf.UnionFind
