import Mathlib.Data.Int.ConditionallyCompleteOrder
import Mathlib.Data.List.Range
import Mathlib.Tactic.NormNum
import Nixie.DiffLogic.Dense.State
import Nixie.Graph.Walk

/-! Cells as shortest distances of the live edges, and what one round of improvements makes of them. -/

namespace Nixie.DiffLogic.Dense

open Nixie.Graph List

abbrev Cells := Nat → Nat → Cell

/-- Edges of a list as weighted steps. -/
def EdgeRel (live : List DlEdge) (a b : Nat) (w : Int) : Prop :=
  ∃ e ∈ live, e.src = a ∧ e.dst = b ∧ e.offset = w

/-- The distance of a cell, infinite where no path is known. -/
def Cell.weight (cell : Cell) : WithTop Int := if cell.dist = dlInf then ⊤ else cell.dist

def distances (cells : Cells) (a b : Nat) : WithTop Int := (cells a b).weight

/-- The table is the closure of the live edges. -/
structure Exact (n : Nat) (cells : Cells) (live : List DlEdge) : Prop where
  closure : Closure (EdgeRel live) (distances cells)
  sound : NoNegativeCycle (EdgeRel live)
  nodes : ∀ e ∈ live, e.src < n ∧ e.dst < n
  weights : ∀ e ∈ live, |e.offset| ≤ dlMaxAbsWeight
  known : ∀ a b, (cells a b).edge = .noEdge ↔ (cells a b).dist = dlInf

section

variable {n : Nat} {cells : Cells} {live : List DlEdge} {a b c : Nat}

theorem distances_coe {w : Int} (finite : w ≠ dlInf) :
    distances cells a b = w ↔ (cells a b).dist = w := by
  unfold distances Cell.weight
  split
  · rename_i infinite
    rw [infinite]
    exact ⟨fun same => absurd same.symm (WithTop.coe_ne_top), fun same => absurd same.symm finite⟩
  · exact WithTop.coe_eq_coe

theorem distances_top : distances cells a b = ⊤ ↔ (cells a b).dist = dlInf := by
  unfold distances Cell.weight
  split
  · rename_i infinite
    exact ⟨fun _ => infinite, fun _ => rfl⟩
  · rename_i finite
    exact ⟨fun same => absurd same WithTop.coe_ne_top, fun same => absurd same finite⟩

theorem exact_new : Exact 0 isolated [] where
  closure := by
    have base := @closure_empty Nat Int _ _ _
    have same : distances isolated = fun a b : Nat => if a = b then (0 : WithTop Int) else ⊤ := by
      funext a b
      unfold distances isolated Cell.weight
      split
      · rfl
      · rfl
    rw [same]
    refine ⟨fun walk => base.least (walk.mono fun _ _ _ ⟨_, mem, _⟩ => (nomatch mem)),
      fun same => ?_⟩
    obtain ⟨vertices, walk⟩ := base.attained same
    exact ⟨vertices, walk.mono fun _ _ _ absent => absent.elim⟩
  sound := by
    intro a vertices w walk
    cases walk with
    | nil => exact le_rfl
    | cons first =>
      obtain ⟨_, mem, _⟩ := first
      cases mem
  nodes := fun _ mem => nomatch mem
  weights := fun _ mem => nomatch mem
  known := by
    intro a b
    unfold isolated
    split
    · exact ⟨fun same => (nomatch same), fun same => absurd same (by decide)⟩
    · exact ⟨fun _ => rfl, fun _ => rfl⟩

theorem Exact.range (exact_ : Exact n cells live) (budget : n ≤ dlMaxNodes)
    (finite : (cells a b).dist ≠ dlInf) : |(cells a b).dist| ≤ 2 ^ 51 := by
  obtain ⟨vertices, walk⟩ := exact_.closure.attained ((distances_coe finite).mpr rfl)
  -- A shortest walk is simple, so it has at most one edge for each node.
  obtain ⟨short, v, simple, distinct, least⟩ := exact_.sound.simple le_rfl walk
  have same : (cells a b).dist = v := by
    have bound := exact_.closure.least simple
    rw [(distances_coe finite).mpr rfl, WithTop.coe_le_coe] at bound
    exact le_antisymm bound least
  have lies : short ⊆ List.range n := by
    intro x mem
    obtain ⟨y, w, e, live_, rfl, _⟩ := simple.sources mem
    exact mem_range.mpr (exact_.nodes e live_).1
  have length : short.length ≤ n := by
    have bound := distinct.length_le_of_subset lies
    rwa [length_range] at bound
  have bounded : |v| ≤ short.length • dlMaxAbsWeight := simple.abs_le
    fun _ _ _ ⟨e, live_, _, _, offset⟩ => offset ▸ exact_.weights e live_
  rw [same]
  refine bounded.trans ?_
  have few : (short.length : Int) ≤ 2048 := by
    have count := length.trans budget
    unfold dlMaxNodes at count
    omega
  rw [nsmul_eq_mul]
  unfold dlMaxAbsWeight
  norm_num at *
  omega

theorem Exact.diagonal (exact_ : Exact n cells live) (a : Nat) : (cells a a).dist = 0 := by
  have below := exact_.closure.self_le a
  have above := exact_.closure.noNegativeCycle_iff.mp exact_.sound a
  exact (distances_coe (by decide)).mp (le_antisymm below above)

theorem Exact.triangle (exact_ : Exact n cells live) (first : (cells a b).dist ≠ dlInf) (second : (cells b c).dist ≠ dlInf) :
    (cells a c).dist ≠ dlInf ∧ (cells a c).dist ≤ (cells a b).dist + (cells b c).dist := by
  have bound := exact_.closure.triangle a b c
  rw [(distances_coe first).mpr rfl, (distances_coe second).mpr rfl, ← WithTop.coe_add] at bound
  have finite : (cells a c).dist ≠ dlInf := fun infinite => by
    rw [distances_top.mpr infinite] at bound
    exact absurd bound (not_le.mpr (WithTop.coe_lt_top _))
  rw [(distances_coe finite).mpr rfl, WithTop.coe_le_coe] at bound
  exact ⟨finite, bound⟩

theorem Exact.edge_le (exact_ : Exact n cells live) {e : DlEdge} (mem : e ∈ live) :
    (cells e.src e.dst).dist ≠ dlInf ∧ (cells e.src e.dst).dist ≤ e.offset := by
  have bound := exact_.closure.edge_le ⟨e, mem, rfl, rfl, rfl⟩
  have finite : (cells e.src e.dst).dist ≠ dlInf := fun infinite => by
    rw [distances_top.mpr infinite] at bound
    exact absurd bound (not_le.mpr (WithTop.coe_lt_top _))
  rw [(distances_coe finite).mpr rfl, WithTop.coe_le_coe] at bound
  exact ⟨finite, bound⟩

theorem walk_inside (nodes : ∀ e ∈ live, e.src < n ∧ e.dst < n) {vertices : List Nat} {w : Int}
    (walk : Walk (EdgeRel live) a vertices b w) (apart : a ≠ b) : a < n ∧ b < n := by
  -- By induction on the walk: its first edge starts, and its last edge ends, in an existing node.
  induction walk with
  | nil => exact absurd rfl apart
  | @cons a x b w r vertices first _ ih =>
    obtain ⟨e, mem, rfl, rfl, _⟩ := first
    by_cases here : e.dst = b
    · exact here ▸ nodes e mem
    · exact ⟨(nodes e mem).1, (ih here).2⟩

theorem Exact.inside (exact_ : Exact n cells live) (finite : (cells a b).dist ≠ dlInf)
    (apart : a ≠ b) : a < n ∧ b < n := by
  obtain ⟨vertices, walk⟩ := exact_.closure.attained ((distances_coe finite).mpr rfl)
  exact walk_inside exact_.nodes walk apart

end

section

variable {n id : Nat} {cells : Cells} {live : List DlEdge} {e : DlEdge}

/-- The cell is improved by going through the edge. -/
def Improved (cells : Cells) (e : DlEdge) (y x : Nat) : Prop :=
  (x ≠ e.src ∧ (cells e.dst x).dist ≠ dlInf ∧
    e.offset + (cells e.dst x).dist < (cells e.src x).dist) ∧
  (y ≠ e.dst ∧ (cells y e.src).dist ≠ dlInf) ∧ x ≠ y ∧
    (cells y e.src).dist + (e.offset + (cells e.dst x).dist) < (cells y x).dist

instance (cells : Cells) (e : DlEdge) (y x : Nat) : Decidable (Improved cells e y x) :=
  inferInstanceAs (Decidable (_ ∧ _))

def after (cells : Cells) (e : DlEdge) (id : Nat) : Cells := fun y x =>
  if Improved cells e y x then
    ⟨(cells y e.src).dist + (e.offset + (cells e.dst x).dist), .edge id⟩
  else cells y x

/-- A new edge that the state accepts. -/
structure Accepted (n : Nat) (cells : Cells) (e : DlEdge) : Prop where
  nodes : e.src < n ∧ e.dst < n
  weight : |e.offset| ≤ dlMaxAbsWeight
  cycle : (cells e.dst e.src).dist ≠ dlInf → 0 ≤ e.offset + (cells e.dst e.src).dist

theorem Accepted.positive (accepted : Accepted n cells e) :
    0 ≤ (e.offset : WithTop Int) + distances cells e.dst e.src := by
  by_cases infinite : (cells e.dst e.src).dist = dlInf
  · rw [distances_top.mpr infinite]
    simp
  · rw [(distances_coe infinite).mpr rfl, ← WithTop.coe_add, ← WithTop.coe_zero, WithTop.coe_le_coe]
    exact accepted.cycle infinite

theorem Exact.detour_lt (exact_ : Exact n cells live) (budget : n ≤ dlMaxNodes)
    (accepted : Accepted n cells e) {y x : Nat} (first : (cells y e.src).dist ≠ dlInf)
    (second : (cells e.dst x).dist ≠ dlInf) :
    (cells y e.src).dist + (e.offset + (cells e.dst x).dist) < dlInf ∧
      e.offset + (cells e.dst x).dist < dlInf := by
  have before := abs_le.mp (exact_.range budget first)
  have behind := abs_le.mp (exact_.range budget second)
  have weight := abs_le.mp accepted.weight
  unfold dlMaxAbsWeight at weight
  unfold dlInf
  norm_num at *
  omega

theorem Exact.le_detour (exact_ : Exact n cells live) (budget : n ≤ dlMaxNodes)
    (accepted : Accepted n cells e) {y x : Nat} (first : (cells y e.src).dist ≠ dlInf)
    (second : (cells e.dst x).dist ≠ dlInf) (stays : ¬ Improved cells e y x) :
    (cells y x).dist ≤ (cells y e.src).dist + (e.offset + (cells e.dst x).dist) := by
  obtain ⟨_, direct⟩ := exact_.detour_lt budget accepted first second
  unfold Improved at stays
  by_cases column : x = e.src
  · -- The detour contains the cycle through the edge.
    subst column
    have cycle := accepted.cycle second
    omega
  by_cases row : y = e.dst
  · subst row
    have cycle := accepted.cycle first
    omega
  by_cases same : x = y
  · -- The detour is a cycle.
    subst same
    have diagonal := exact_.diagonal x
    obtain ⟨finite, bound⟩ := exact_.triangle second first
    have cycle := accepted.cycle finite
    omega
  by_cases target : e.offset + (cells e.dst x).dist < (cells e.src x).dist
  · by_contra shorter
    exact stays ⟨⟨column, second, target⟩, ⟨row, first⟩, same, not_le.mp shorter⟩
  · -- The source reaches the column without the edge.
    have finite : (cells e.src x).dist ≠ dlInf := fun infinite => by
      rw [infinite] at target
      exact target direct
    obtain ⟨_, bound⟩ := exact_.triangle first finite
    omega

theorem Exact.distances_after (exact_ : Exact n cells live) (budget : n ≤ dlMaxNodes)
    (accepted : Accepted n cells e) :
    distances (after cells e id) = relax (distances cells) e.src e.dst e.offset := by
  funext y x
  unfold relax
  by_cases first : (cells y e.src).dist = dlInf
  · have stays : ¬ Improved cells e y x := fun improved => improved.2.1.2 first
    rw [distances_top.mpr first, WithTop.top_add, WithTop.top_add, min_eq_left le_top]
    unfold distances after
    rw [if_neg stays]
  by_cases second : (cells e.dst x).dist = dlInf
  · have stays : ¬ Improved cells e y x := fun improved => improved.1.2.1 second
    rw [distances_top.mpr second, WithTop.add_top, min_eq_left le_top]
    unfold distances after
    rw [if_neg stays]
  -- Both parts of the detour are finite.
  obtain ⟨finite, _⟩ := exact_.detour_lt budget accepted first second
  rw [(distances_coe first).mpr rfl, (distances_coe second).mpr rfl, ← WithTop.coe_add,
    ← WithTop.coe_add, add_assoc]
  by_cases improved : Improved cells e y x
  · have value : distances (after cells e id) y x =
        ((cells y e.src).dist + (e.offset + (cells e.dst x).dist) : Int) := by
      refine (distances_coe (ne_of_lt finite)).mpr ?_
      unfold after
      rw [if_pos improved]
    rw [value, min_eq_right]
    -- The old distance was larger, or infinite.
    unfold distances Cell.weight
    split
    · exact le_top
    · exact WithTop.coe_le_coe.mpr improved.2.2.2.le
  · have bound := exact_.le_detour budget accepted first second improved
    have old : (cells y x).dist ≠ dlInf := fun infinite => by
      rw [infinite] at bound
      exact absurd finite (not_lt.mpr bound)
    have value : distances (after cells e id) y x = distances cells y x := by
      unfold distances after
      rw [if_neg improved]
    rw [value, (distances_coe old).mpr rfl, min_eq_left (WithTop.coe_le_coe.mpr bound)]

theorem edgeRel_append : EdgeRel (live ++ [e]) = insertEdge (EdgeRel live) e.src e.dst e.offset := by
  funext a b w
  refine propext ⟨?_, ?_⟩
  · rintro ⟨other, mem, rfl, rfl, rfl⟩
    rcases mem_append.mp mem with old | last
    · exact .inl ⟨other, old, rfl, rfl, rfl⟩
    · rw [mem_singleton.mp last]
      exact .inr ⟨rfl, rfl, rfl⟩
  · rintro (⟨other, mem, rfl, rfl, rfl⟩ | ⟨rfl, rfl, rfl⟩)
    · exact ⟨other, mem_append_left _ mem, rfl, rfl, rfl⟩
    · exact ⟨e, mem_append_right _ (.head _), rfl, rfl, rfl⟩

theorem Exact.after (exact_ : Exact n cells live) (budget : n ≤ dlMaxNodes)
    (accepted : Accepted n cells e) (id : Nat) : Exact n (after cells e id) (live ++ [e]) where
  closure := by
    rw [edgeRel_append, exact_.distances_after budget accepted]
    exact exact_.closure.insert accepted.positive
  sound := by
    rw [edgeRel_append]
    by_contra negative
    exact absurd ((exact_.closure.insert_negative exact_.sound).mp negative)
      (not_lt.mpr accepted.positive)
  nodes := by
    intro other mem
    rcases mem_append.mp mem with old | last
    · exact exact_.nodes other old
    · exact mem_singleton.mp last ▸ accepted.nodes
  weights := by
    intro other mem
    rcases mem_append.mp mem with old | last
    · exact exact_.weights other old
    · exact mem_singleton.mp last ▸ accepted.weight
  known := by
    intro a b
    unfold Dense.after
    split
    · rename_i improved
      obtain ⟨finite, _⟩ := exact_.detour_lt budget accepted improved.2.1.2 improved.1.2.1
      exact ⟨fun same => (nomatch same), fun same => absurd same (ne_of_lt finite)⟩
    · exact exact_.known a b

theorem Exact.redundant (exact_ : Exact n cells live) (budget : n ≤ dlMaxNodes)
    (accepted : Accepted n cells e) (heavy : (cells e.src e.dst).dist ≤ e.offset) :
    Exact n cells (live ++ [e]) := by
  have same : Dense.after cells e 0 = cells := by
    funext y x
    unfold Dense.after
    rw [if_neg]
    rintro ⟨⟨_, second, target⟩, _⟩
    -- The source reaches the column through the old path to the target.
    have finite : (cells e.src e.dst).dist ≠ dlInf := fun infinite => by
      have weight := abs_le.mp accepted.weight
      rw [infinite] at heavy
      unfold dlMaxAbsWeight at weight
      unfold dlInf at heavy
      norm_num at *
      omega
    obtain ⟨_, bound⟩ := exact_.triangle finite second
    omega
  have next := exact_.after budget accepted 0
  rwa [same] at next

theorem Exact.conflict_iff (exact_ : Exact n cells live) :
    ¬ NoNegativeCycle (EdgeRel (live ++ [e])) ↔
      (cells e.dst e.src).dist ≠ dlInf ∧ e.offset + (cells e.dst e.src).dist < 0 := by
  rw [edgeRel_append, exact_.closure.insert_negative exact_.sound]
  constructor
  · intro light
    have finite : (cells e.dst e.src).dist ≠ dlInf := fun infinite => by
      rw [distances_top.mpr infinite] at light
      simp at light
    rw [(distances_coe finite).mpr rfl, ← WithTop.coe_add, ← WithTop.coe_zero,
      WithTop.coe_lt_coe] at light
    exact ⟨finite, light⟩
  · rintro ⟨finite, light⟩
    rw [(distances_coe finite).mpr rfl, ← WithTop.coe_add, ← WithTop.coe_zero, WithTop.coe_lt_coe]
    exact light

end

end Nixie.DiffLogic.Dense
