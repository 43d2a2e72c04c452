import Mathlib.Algebra.Order.Group.Unbundled.Abs
import Mathlib.Algebra.Order.Monoid.WithTop
import Mathlib.Data.List.Nodup
import Mathlib.Tactic.Abel

/-! Weighted walks, potentials, and the closure of shortest distances. -/

namespace Nixie.Graph

open List

variable {V W : Type*}

/-- A walk along weighted edges, with the vertices that it leaves. -/
inductive Walk [Zero W] [Add W] (edge : V → V → W → Prop) : V → List V → V → W → Prop where
  | nil (a : V) : Walk edge a [] a 0
  | cons {a b c : V} {w r : W} {vertices : List V} (first : edge a b w)
      (rest : Walk edge b vertices c r) : Walk edge a (a :: vertices) c (w + r)

section

variable [AddCommGroup W] {edge larger : V → V → W → Prop} {a b c : V} {w r : W}
  {vertices later : List V}

theorem Walk.single (step : edge a b w) : Walk edge a [a] b w := by
  have walk := Walk.cons step (.nil b)
  rwa [add_zero] at walk

theorem Walk.append (walk : Walk edge a vertices b w) (next : Walk edge b later c r) :
    Walk edge a (vertices ++ later) c (w + r) := by
  -- By induction on the first walk, whose edges stay in front.
  induction walk with
  | nil => rwa [zero_add]
  | cons first _ ih =>
    rw [add_assoc]
    exact .cons first (ih next)

theorem Walk.mono (walk : Walk edge a vertices b w) (more : ∀ a b w, edge a b w → larger a b w) :
    Walk larger a vertices b w := by
  -- Each edge is one of the larger set.
  induction walk with
  | nil => exact .nil _
  | cons first _ ih => exact .cons (more _ _ _ first) ih

theorem Walk.split : ∀ {vertices : List V} {a : V} {w : W},
    Walk edge a (vertices ++ b :: later) c w →
      ∃ u v, Walk edge a vertices b u ∧ Walk edge b (b :: later) c v ∧ w = u + v := by
  intro vertices
  induction vertices with
  | nil =>
    intro a w walk
    -- The walk leaves its own start.
    cases walk with
    | cons first rest => exact ⟨0, _, .nil _, .cons first rest, (zero_add _).symm⟩
  | cons x vertices ih =>
    intro a w walk
    cases walk with
    | cons first rest =>
      obtain ⟨u, v, before, behind, sum⟩ := ih rest
      exact ⟨_, v, .cons first before, behind, by rw [sum, add_assoc]⟩

theorem Walk.last (walk : Walk edge a vertices b w) : (vertices = [] ∧ a = b ∧ w = 0) ∨
      ∃ front u r k, Walk edge a front u r ∧ edge u b k ∧ vertices = front ++ [u] ∧ w = r + k := by
  -- By induction on the walk: its last edge is that of the rest, or its only one.
  induction walk with
  | nil => exact .inl ⟨rfl, rfl, rfl⟩
  | @cons a b c w r vertices first rest ih =>
    right
    rcases ih with ⟨rfl, rfl, rfl⟩ | ⟨front, u, s, k, before, step, rfl, rfl⟩
    · exact ⟨[], a, 0, w, .nil a, first, rfl, by rw [zero_add, add_zero]⟩
    · exact ⟨a :: front, u, w + s, k, .cons first before, step, rfl, (add_assoc w s k).symm⟩

theorem Walk.sources (walk : Walk edge a vertices b w) {x : V} (mem : x ∈ vertices) :
    ∃ y v, edge x y v := by
  -- By induction on the walk, every vertex of the list starts its edge.
  induction walk with
  | nil => cases mem
  | cons first _ ih =>
    rcases mem_cons.mp mem with rfl | later
    · exact ⟨_, _, first⟩
    · exact ih later

theorem exists_repeated : ∀ {list : List V}, ¬ list.Nodup →
    ∃ before x between after, list = before ++ x :: (between ++ x :: after) := by
  intro list
  induction list with
  | nil => exact fun repeats => absurd nodup_nil repeats
  | cons head rest ih =>
    intro repeats
    -- Either the head occurs again, or the rest has the repetition.
    by_cases again : head ∈ rest
    · obtain ⟨between, after, rfl⟩ := append_of_mem again
      exact ⟨[], head, between, after, rfl⟩
    · have lies : ¬ rest.Nodup := fun distinct => repeats (nodup_cons.mpr ⟨again, distinct⟩)
      obtain ⟨before, x, between, after, rfl⟩ := ih lies
      exact ⟨head :: before, x, between, after, rfl⟩

end

section

variable [AddCommGroup W] [LinearOrder W] [IsOrderedAddMonoid W] {edge : V → V → W → Prop}
  {a b : V} {w : W} {vertices : List V}

/-- No closed walk has a negative weight. -/
def NoNegativeCycle (edge : V → V → W → Prop) : Prop :=
  ∀ a vertices w, Walk edge a vertices a w → 0 ≤ w

theorem NoNegativeCycle.simple (sound : NoNegativeCycle edge) :
    ∀ {length : Nat} {vertices : List V} {a b : V} {w : W}, vertices.length ≤ length →
      Walk edge a vertices b w →
        ∃ short v, Walk edge a short b v ∧ short.Nodup ∧ v ≤ w := by
  intro length
  induction length with
  | zero =>
    intro vertices a b w bound walk
    have empty := length_eq_zero_iff.mp (Nat.le_zero.mp bound)
    exact ⟨vertices, w, walk, empty ▸ nodup_nil, le_rfl⟩
  | succ length ih =>
    intro vertices a b w bound walk
    by_cases distinct : vertices.Nodup
    · exact ⟨vertices, w, walk, distinct, le_rfl⟩
    · -- The part between two visits of a vertex is a cycle, and is cut out.
      obtain ⟨before, x, between, after, rfl⟩ := exists_repeated distinct
      obtain ⟨u, v, first, rest, rfl⟩ := walk.split
      rw [← cons_append] at rest
      obtain ⟨cycle, t, middle, last, rfl⟩ := rest.split
      have shorter : (before ++ x :: after).length ≤ length := by
        simp only [length_append, length_cons] at bound ⊢
        omega
      obtain ⟨short, v, simple, nodup, least⟩ := ih shorter (first.append last)
      refine ⟨short, v, simple, nodup, least.trans ?_⟩
      have pos := sound _ _ _ middle
      exact add_le_add le_rfl (le_add_of_nonneg_left pos)

theorem Walk.abs_le {bound : W} (bounded : ∀ a b w, edge a b w → |w| ≤ bound)
    (walk : Walk edge a vertices b w) : |w| ≤ vertices.length • bound := by
  -- By induction on the walk.
  induction walk with
  | nil => simp
  | @cons a b c w r vertices first _ ih =>
    calc |w + r| ≤ |w| + |r| := abs_add_le _ _
      _ ≤ bound + vertices.length • bound := add_le_add (bounded _ _ _ first) ih
      _ = (a :: vertices).length • bound := by rw [length_cons, succ_nsmul, add_comm]

/-- A value for every vertex that no edge exceeds. -/
def Potential (edge : V → V → W → Prop) (value : V → W) : Prop :=
  ∀ a b w, edge a b w → value b ≤ value a + w

theorem Potential.walk {value : V → W} (potential : Potential edge value)
    (walk : Walk edge a vertices b w) : value b ≤ value a + w := by
  -- By induction on the walk, the bounds of its edges add up.
  induction walk with
  | nil => rw [add_zero]
  | cons first _ ih =>
    refine ih.trans ?_
    rw [← add_assoc]
    exact add_le_add (potential _ _ _ first) le_rfl

theorem Potential.noNegativeCycle {value : V → W} (potential : Potential edge value) :
    NoNegativeCycle edge := by
  intro a vertices w walk
  have bound := potential.walk walk
  exact (le_add_iff_nonneg_right _).mp bound

end

section

variable [AddCommGroup W]

/-- The sources of edges are few. -/
def FewSources (edge : V → V → W → Prop) (n : Nat) : Prop :=
  ∀ {a vertices b w}, Walk edge a vertices b w → vertices.Nodup → vertices.length ≤ n

theorem fewSources {n : Nat} {edge : Nat → Nat → W → Prop} (lies : ∀ a b w, edge a b w → a < n) :
    FewSources edge n := by
  intro a vertices b w walk distinct
  -- Different numbers below a bound are at most as many as the bound.
  have sub : vertices ⊆ range n := by
    intro x mem
    obtain ⟨y, k, step⟩ := walk.sources mem
    exact mem_range.mpr (lies x y k step)
  have count := distinct.length_le_of_subset sub
  rwa [length_range] at count

end

section

variable [AddCommGroup W] [LinearOrder W] {edge : V → V → W → Prop} {d : V → V → WithTop W}

/-- Distances are the least weights of walks; infinite ones have no walk. -/
structure Closure (edge : V → V → W → Prop) (d : V → V → WithTop W) : Prop where
  least : ∀ {a b vertices w}, Walk edge a vertices b w → d a b ≤ w
  attained : ∀ {a b} {w : W}, d a b = w → ∃ vertices, Walk edge a vertices b w

theorem closure_empty [DecidableEq V] :
    Closure (fun _ _ _ => False) (fun a b : V => if a = b then (0 : WithTop W) else ⊤) where
  least := by
    intro a b vertices w walk
    -- The only walk is the empty one.
    cases walk with
    | nil =>
      rw [if_pos rfl]
      exact le_rfl
    | cons first => exact first.elim
  attained := by
    intro a b w same
    split at same
    · rename_i equal
      subst equal
      rw [← WithTop.coe_zero, WithTop.coe_eq_coe] at same
      exact ⟨[], same ▸ .nil a⟩
    · exact absurd same WithTop.top_ne_coe

theorem Closure.self_le (closure : Closure edge d) (a : V) : d a a ≤ 0 := closure.least (.nil a)

theorem Closure.edge_le (closure : Closure edge d) {a b : V} {w : W} (step : edge a b w) :
    d a b ≤ w := closure.least (.single step)

theorem Closure.triangle (closure : Closure edge d) (a b c : V) : d a c ≤ d a b + d b c := by
  -- Finite distances are walks, which can be joined.
  cases first : d a b with
  | top => simp
  | coe u =>
    cases second : d b c with
    | top => simp
    | coe v =>
      obtain ⟨_, before⟩ := closure.attained first
      obtain ⟨_, behind⟩ := closure.attained second
      rw [← WithTop.coe_add]
      exact closure.least (before.append behind)

theorem Closure.noNegativeCycle_iff (closure : Closure edge d) :
    NoNegativeCycle edge ↔ ∀ a, 0 ≤ d a a := by
  constructor
  · intro sound a
    cases same : d a a with
    | top => exact le_top
    | coe w =>
      obtain ⟨_, cycle⟩ := closure.attained same
      rw [← WithTop.coe_zero, WithTop.coe_le_coe]
      exact sound _ _ _ cycle
  · intro diagonal a vertices w cycle
    have bound := (diagonal a).trans (closure.least cycle)
    rwa [← WithTop.coe_zero, WithTop.coe_le_coe] at bound

def insertEdge (edge : V → V → W → Prop) (s t : V) (k : W) : V → V → W → Prop :=
  fun a b w => edge a b w ∨ (a = s ∧ b = t ∧ w = k)

def relax (d : V → V → WithTop W) (s t : V) (k : W) : V → V → WithTop W :=
  fun a b => min (d a b) (d a s + k + d t b)

variable [IsOrderedAddMonoid W]

/--
One relaxation through a new edge is enough if the edge closes no negative cycle.

A walk that uses the edge twice contains a cycle through it, which can be left out.
-/
theorem Closure.insert (closure : Closure edge d) {s t : V} {k : W} (cycle : 0 ≤ k + d t s) :
    Closure (insertEdge edge s t k) (relax d s t k) where
  least := by
    intro a b vertices w walk
    -- By induction on the walk: its first edge is old or the new one.
    induction walk with
    | nil a => exact (min_le_left _ _).trans (closure.self_le a)
    | @cons a b c w r vertices first _ ih =>
      rw [WithTop.coe_add]
      rcases first with old | ⟨rfl, rfl, rfl⟩
      · have step := closure.edge_le old
        rcases min_le_iff.mp ih with direct | detour
        · -- The old edge extends an old walk.
          refine (min_le_left _ _).trans ((closure.triangle a b c).trans ?_)
          exact add_le_add step direct
        · refine (min_le_right _ _).trans ?_
          calc d a s + k + d t c ≤ d a b + d b s + k + d t c := by
                gcongr
                exact closure.triangle a b s
            _ = d a b + (d b s + k + d t c) := by
                simp only [add_assoc]
            _ ≤ w + r := add_le_add step detour
      · rcases min_le_iff.mp ih with direct | detour
        · -- The new edge followed by an old walk.
          refine (min_le_right _ _).trans ?_
          calc d a a + w + d b c ≤ 0 + w + d b c := by
                gcongr
                exact closure.self_le a
            _ ≤ w + r := by
                rw [zero_add]
                gcongr
        · -- The edge is used again, and the cycle between is not negative.
          refine (min_le_right _ _).trans ?_
          calc d a a + w + d b c ≤ 0 + w + d b c := by
                gcongr
                exact closure.self_le a
            _ ≤ w + ((w + d b a) + d b c) := by
                rw [zero_add]
                gcongr
                exact le_add_of_nonneg_left cycle
            _ = w + (d b a + w + d b c) := by
                rw [add_comm (w : WithTop W) (d b a)]
            _ ≤ w + r := by
                gcongr
  attained := by
    intro a b w same
    have old : ∀ {x y v} {vertices : List V}, Walk edge x vertices y v →
        Walk (insertEdge edge s t k) x vertices y v := fun walk => walk.mono fun _ _ _ => .inl
    rcases min_choice (d a b) (d a s + k + d t b) with direct | detour
    · obtain ⟨vertices, walk⟩ := closure.attained (direct.symm.trans same)
      exact ⟨vertices, old walk⟩
    · -- A finite detour is made of two old walks.
      have sum : d a s + k + d t b = w := detour.symm.trans same
      cases first : d a s with
      | top => simp [first] at sum
      | coe u =>
        cases second : d t b with
        | top => simp [second] at sum
        | coe v =>
          rw [first, second, ← WithTop.coe_add, ← WithTop.coe_add, WithTop.coe_eq_coe] at sum
          obtain ⟨before, walk⟩ := closure.attained first
          obtain ⟨behind, walk'⟩ := closure.attained second
          refine ⟨before ++ s :: behind, ?_⟩
          rw [← sum, add_assoc]
          exact (old walk).append (.cons (.inr ⟨rfl, rfl, rfl⟩) (old walk'))

theorem Closure.insert_negative (closure : Closure edge d) (sound : NoNegativeCycle edge) {s t : V}
    {k : W} : ¬ NoNegativeCycle (insertEdge edge s t k) ↔ (k : WithTop W) + d t s < 0 := by
  constructor
  · intro negative
    by_contra pos
    -- Otherwise one relaxation is the closure, and its diagonal is not negative.
    have cycle := not_lt.mp pos
    refine negative ((closure.insert cycle).noNegativeCycle_iff.mpr fun a => ?_)
    refine le_min (closure.noNegativeCycle_iff.mp sound a) ?_
    calc (0 : WithTop W) ≤ k + d t s := cycle
      _ ≤ k + (d t a + d a s) := by
          gcongr
          exact closure.triangle t a s
      _ = d a s + k + d t a := by
          rw [add_comm (d t a), add_assoc, ← add_assoc (k : WithTop W), add_comm (k : WithTop W),
            add_assoc]
  · intro light sound'
    cases back : d t s with
    | top => simp [back] at light
    | coe r =>
      obtain ⟨vertices, walk⟩ := closure.attained back
      have cycle := sound' _ _ _ (Walk.cons (.inr ⟨rfl, rfl, rfl⟩) (walk.mono fun _ _ _ => .inl))
      rw [back, ← WithTop.coe_add, ← WithTop.coe_zero, WithTop.coe_lt_coe] at light
      exact absurd cycle (not_le.mpr light)

end

end Nixie.Graph
