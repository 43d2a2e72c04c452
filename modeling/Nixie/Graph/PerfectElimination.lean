import Mathlib.Combinatorics.SimpleGraph.Connectivity.Connected
import Mathlib.Order.Interval.Finset.Nat

/-! Closing the triangles of a chordal graph closes every path that a chosen edge set can take. -/

namespace Nixie

variable {V : Type*} {G H : SimpleGraph V} {rank : V → Nat}

/-- Every vertex sees its later neighbours as a clique, and neighbours never share a rank. -/
structure PerfectElimination (G : SimpleGraph V) (rank : V → Nat) : Prop where
  separated : ∀ {a b}, G.Adj a b → rank a ≠ rank b
  clique : ∀ {v a b}, G.Adj v a → G.Adj v b → rank v < rank a → rank v < rank b → a ≠ b → G.Adj a b

/-- Two chosen sides of a triangle bring the third side with them. -/
structure TriangleClosed (G H : SimpleGraph V) : Prop where
  sub : H ≤ G
  close : ∀ {a b c}, H.Adj a b → H.Adj b c → G.Adj a c → H.Adj a c

/-- A path of `length` steps that stays inside the chosen edges. -/
def StepPath (H : SimpleGraph V) (length : Nat) (path : Nat → V) : Prop :=
  -- Only the first `length` steps matter, so later values of the function are free.
  ∀ i < length, H.Adj (path i) (path (i + 1))

theorem StepPath.shortcut {length width at_ : Nat} {path : Nat → V}
    (steps : StepPath H length path) (lies : at_ + width < length)
    (gap : H.Adj (path at_) (path (at_ + width + 1))) :
    StepPath H (length - width) fun i => if i ≤ at_ then path i else path (i + width) := by
  -- Steps before the gap are old steps, steps after it are shifted old steps.
  intro i bound
  rcases Nat.lt_trichotomy i at_ with before | here | after
  · have next : i + 1 ≤ at_ := before
    simpa [before.le, next] using steps i (by omega)
  · subst here
    have past : ¬ i + 1 ≤ i := by omega
    have position : i + 1 + width = i + width + 1 := by omega
    simpa [past, position] using gap
  · have late : ¬ i ≤ at_ := by omega
    have next : ¬ i + 1 ≤ at_ := by omega
    have position : i + 1 + width = i + width + 1 := by omega
    simpa [late, next, position] using steps (i + width) (by omega)

theorem exists_least_rank (rank : V → Nat) (path : Nat → V) (length : Nat) :
    ∃ least ≤ length, ∀ i ≤ length, rank (path least) ≤ rank (path i) := by
  -- The positions form a nonempty finite set, so the rank attains its minimum on it.
  obtain ⟨least, mem, smallest⟩ := Finset.exists_min_image (Finset.range (length + 1))
    (fun i => rank (path i)) ⟨0, by simp⟩
  exact ⟨least, by simpa [Nat.lt_succ_iff] using mem,
    fun i bound => smallest i (by simpa [Nat.lt_succ_iff] using bound)⟩

theorem TriangleClosed.adj_of_path (order : PerfectElimination G rank)
    (closed : TriangleClosed G H) (length : Nat) :
    ∀ path : Nat → V, StepPath H length path → G.Adj (path 0) (path length) →
      H.Adj (path 0) (path length) := by
  -- Strong induction on the length: the earliest eliminated vertex of the path can be bypassed.
  induction length using Nat.strong_induction_on with
  | _ length ih =>
    intro path steps edge
    have pos : 0 < length := by
      rcases Nat.eq_zero_or_pos length with rfl | pos
      · exact absurd rfl edge.ne
      · exact pos
    obtain ⟨least, bound, smallest⟩ := exists_least_rank rank path length
    have below : ∀ i ≤ length, G.Adj (path least) (path i) → rank (path least) < rank (path i) :=
      fun i lies adjacent =>
        lt_of_le_of_ne (smallest i lies) (order.separated adjacent)
    rcases Nat.eq_zero_or_pos least with rfl | interior
    · -- The left end is earliest: its successor and the right end are adjacent or equal.
      have first : H.Adj (path 0) (path 1) := steps 0 pos
      by_cases same : path 1 = path length
      · rwa [same] at first
      have chord : G.Adj (path 1) (path length) :=
        order.clique (closed.sub first) edge (below 1 pos (closed.sub first))
          (below length le_rfl edge) same
      have rest : H.Adj (path 1) (path length) := by
        have tail := ih (length - 1) (by omega) (fun i => path (i + 1))
          (fun i lies => steps (i + 1) (by omega))
        simp only [Nat.sub_add_cancel pos] at tail
        exact tail chord
      exact closed.close first rest edge
    have before : H.Adj (path (least - 1)) (path least) := by
      simpa [Nat.sub_add_cancel interior] using steps (least - 1) (by omega)
    rcases Nat.lt_or_ge least length with inner | last
    · -- An inner vertex is earliest: its two path neighbours coincide or are adjacent.
      have after : H.Adj (path least) (path (least + 1)) := steps least inner
      by_cases same : path (least - 1) = path (least + 1)
      · rcases Nat.lt_or_ge (least + 1) length with more | done
        · have gap : H.Adj (path (least - 1)) (path (least - 1 + 2 + 1)) := by
            have position : least - 1 + 2 + 1 = least + 1 + 1 := by omega
            rw [position, same]
            exact steps (least + 1) more
          have short := ih (length - 2) (by omega) _ (steps.shortcut (by omega) gap)
          have far : ¬ length - 2 ≤ least - 1 := by omega
          have restore : length - 2 + 2 = length := by omega
          simp only [Nat.zero_le, if_true, far, if_false, restore] at short
          exact short edge
        · -- The repeated vertex is the right end, so the path may stop at the earlier visit.
          have finish : length = least + 1 := by omega
          have short := ih (least - 1) (by omega) path (fun i lies => steps i (by omega))
          rw [finish, ← same] at edge ⊢
          exact short edge
      · have chord : G.Adj (path (least - 1)) (path (least + 1)) :=
          order.clique (closed.sub before.symm) (closed.sub after)
            (below _ (by omega) (closed.sub before.symm)) (below _ inner (closed.sub after)) same
        have gap : H.Adj (path (least - 1)) (path (least - 1 + 1 + 1)) := by
          have position : least - 1 + 1 + 1 = least + 1 := by omega
          rw [position]
          exact closed.close before after chord
        have short := ih (length - 1) (by omega) _ (steps.shortcut (by omega) gap)
        have far : ¬ length - 1 ≤ least - 1 := by omega
        have restore : length - 1 + 1 = length := by omega
        simp only [Nat.zero_le, if_true, far, if_false, restore] at short
        exact short edge
    · -- The right end is earliest: the argument for the left end, read backwards.
      have finish : least = length := by omega
      subst finish
      by_cases same : path 0 = path (least - 1)
      · rwa [← same] at before
      have chord : G.Adj (path 0) (path (least - 1)) :=
        order.clique edge.symm (closed.sub before.symm) (below 0 (by omega) edge.symm)
          (below _ (by omega) (closed.sub before.symm)) same
      have rest := ih (least - 1) (by omega) path (fun i lies => steps i (by omega)) chord
      exact closed.close rest before edge

theorem TriangleClosed.adj_of_reachable (order : PerfectElimination G rank)
    (closed : TriangleClosed G H) {a b : V} (joined : H.Reachable a b) (edge : G.Adj a b) :
    H.Adj a b := by
  -- A walk lists its vertices by position, which is the path form of the closing argument.
  obtain ⟨walk⟩ := joined
  have result := closed.adj_of_path order walk.length walk.getVert
    (fun i lies => walk.adj_getVert_succ lies)
  simp only [SimpleGraph.Walk.getVert_zero, SimpleGraph.Walk.getVert_length] at result
  exact result edge

end Nixie
