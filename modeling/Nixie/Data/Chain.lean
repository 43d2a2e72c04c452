import Mathlib.Data.List.Basic

/-! Cells in an array that are chained by the indices of their successors. -/

namespace Nixie

open List

/-- Cells with a label and a link that can be set. -/
structure Links (α κ : Type*) where
  label : α → κ
  next : α → Option Nat
  setNext : Nat → α → α
  label_setNext (j : Nat) (cell : α) : label (setNext j cell) = label cell
  next_setNext (j : Nat) (cell : α) : next (setNext j cell) = some j

namespace Links

variable {α κ : Type*} (L : Links α κ)

def link (i j : Nat) (cells : List α) : List α := cells.modify i (L.setNext j)

theorem link_other {i j x : Nat} (cells : List α) (other : x ≠ i) :
    (L.link i j cells)[x]? = cells[x]? := by
  simp [link, Ne.symm other]

theorem link_same {i j : Nat} {cells : List α} {cell : α} (found : cells[i]? = some cell) :
    (L.link i j cells)[i]? = some (L.setNext j cell) := by
  simp [link, found]

/-- A chain through increasing indices carries the labels of its cells; the last has no link. -/
inductive Chain (cells : List α) : Nat → List κ → Nat → Prop
  | last {i : Nat} {cell : α} (found : cells[i]? = some cell) (ends : L.next cell = none) :
    Chain cells i [L.label cell] i
  | link {i j k : Nat} {cell : α} {labels : List κ} (found : cells[i]? = some cell)
    (linked : L.next cell = some j) (less : i < j) (rest : Chain cells j labels k) :
    Chain cells i (L.label cell :: labels) k

namespace Chain

variable {L} {cells cells' : List α} {i k m : Nat} {labels labels' : List κ}

theorem le (chain : L.Chain cells i labels k) : i ≤ k := by
  induction chain with
  | last => exact Nat.le_refl _
  | link _ _ less _ ih => omega

theorem lt_length (chain : L.Chain cells i labels k) : k < cells.length := by
  induction chain with
  | last found => exact (List.getElem?_eq_some_iff.mp found).1
  | link _ _ _ _ ih => exact ih

theorem length_pos (chain : L.Chain cells i labels k) : 0 < labels.length := by
  cases chain with
  | last => exact Nat.zero_lt_succ _
  | link => exact Nat.zero_lt_succ _

theorem uncons {label : κ} (chain : L.Chain cells i (label :: labels) k) (more : labels ≠ []) :
    ∃ cell j, cells[i]? = some cell ∧ L.label cell = label ∧ L.next cell = some j ∧
      L.Chain cells j labels k := by
  cases chain with
  | last => exact absurd rfl more
  | link found linked _ rest => exact ⟨_, _, found, rfl, linked, rest⟩

theorem length_le (chain : L.Chain cells i labels k) : i + labels.length ≤ k + 1 := by
  induction chain with
  | last => simp
  | link _ _ less _ ih => simp only [length_cons]; omega

theorem stays (chain : L.Chain cells i labels k) (same : ∀ x ≤ k, cells'[x]? = cells[x]?) :
    L.Chain cells' i labels k := by
  induction chain with
  | last found ends => exact .last ((same _ (Nat.le_refl _)).trans found) ends
  | link found linked less chain ih =>
    have before := chain.le
    exact .link ((same _ (by omega)).trans found) linked less (ih same)

theorem join (chain : L.Chain cells i labels k)
    (same : ∀ x < k, cells'[x]? = cells[x]?)
    (rest : ∀ cell, cells[k]? = some cell → L.Chain cells' k (L.label cell :: labels') m) :
    L.Chain cells' i (labels ++ labels') m := by
  -- Only the cell at the end may have changed.
  induction chain with
  | last found => exact rest _ found
  | link found linked less chain ih =>
    have before := chain.le
    exact .link ((same _ (by omega)).trans found) linked less (ih same rest)

end Chain

/-- Links each of some cells to the one after it. -/
def linkPath : List Nat → List α → List α
  | i :: j :: rest, cells => linkPath (j :: rest) (L.link i j cells)
  | _, cells => cells

theorem linkPath_other {x : Nat} (path : List Nat) (cells : List α) (other : x ∉ path) :
    (L.linkPath path cells)[x]? = cells[x]? := by
  induction path generalizing cells with
  | nil => rfl
  | cons i rest ih =>
    cases rest with
    | nil => rfl
    | cons j rest =>
      have outside := not_or.mp (mt mem_cons.mpr other)
      rw [linkPath, ih _ outside.2, link_other L cells outside.1]

theorem chain_linkPath {cells : List α} {i k : Nat} {rest : List Nat} {labels : List κ}
    (increasing : (i :: rest).Pairwise (· < ·))
    (found : (i :: rest).map (fun x => cells[x]?.map L.label) = labels.map some)
    (final : (i :: rest).getLast (cons_ne_nil _ _) = k)
    (ends : cells[k]?.bind L.next = none) :
    L.Chain (L.linkPath (i :: rest) cells) i labels k := by
  -- A cell that is linked is before all the cells that are linked after it.
  induction rest generalizing i cells labels with
  | nil =>
    rw [getLast_singleton] at final
    subst final
    obtain ⟨label, rfl⟩ := length_eq_one_iff.mp (by simpa using (congrArg length found).symm)
    obtain ⟨cell, here, rfl⟩ := Option.map_eq_some_iff.mp (head_eq_of_cons_eq found)
    rw [here] at ends
    exact .last here ends
  | cons j rest ih =>
    cases labels with
    | nil => exact absurd found (by simp)
    | cons label labels =>
      have later := (pairwise_cons.mp increasing).1
      obtain ⟨here, others⟩ := cons.inj found
      obtain ⟨cell, at_, rfl⟩ := Option.map_eq_some_iff.mp here
      have kept : ∀ x ∈ j :: rest, (L.link i j cells)[x]? = cells[x]? :=
        fun x mem => link_other L cells (Nat.ne_of_gt (later x mem))
      rw [getLast_cons (cons_ne_nil j rest)] at final
      have atEnd : k ∈ j :: rest := final ▸ getLast_mem _
      have tail := @ih (L.link i j cells) j labels (pairwise_cons.mp increasing).2
        ((map_congr_left fun x mem => by rw [kept x mem]).trans others) final
        (by rw [kept k atEnd]; exact ends)
      have start : (L.linkPath (j :: rest) (L.link i j cells))[i]? = some (L.setNext j cell) := by
        rw [linkPath_other L _ _ fun mem => Nat.lt_irrefl i (later i mem)]
        exact link_same L at_
      rw [linkPath, ← L.label_setNext j cell]
      exact .link start (L.next_setNext j cell) (later j mem_cons_self) tail

end Links

end Nixie
