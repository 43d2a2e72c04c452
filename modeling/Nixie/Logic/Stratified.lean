import Mathlib.Data.Set.Card
import Mathlib.Order.Lattice.Nat

/-! Operators with negation: least fixed points along a stratification, and their uniqueness. -/

namespace Nixie

section

variable {α : Type*} {pos neg : α → α → Prop}

/-- Levels: what is depended on is not higher, and lower where the dependency is negative. -/
structure Leveling (pos neg : α → α → Prop) (σ : α → Nat) : Prop where
  pos : ∀ {r q}, pos r q → σ q ≤ σ r
  neg : ∀ {r q}, neg r q → σ q < σ r

/-- A cycle of dependencies with a negative one in it. -/
def NegativeCycle (pos neg : α → α → Prop) : Prop :=
  ∃ r q, neg r q ∧ Relation.ReflTransGen (fun r q => pos r q ∨ neg r q) q r

theorem Leveling.le_of_reaches {σ : α → Nat} (levels : Leveling pos neg σ) {r q : α}
    (path : Relation.ReflTransGen (fun r q => pos r q ∨ neg r q) r q) : σ q ≤ σ r := by
  induction path with
  | refl => exact Nat.le_refl _
  | tail _ step ih =>
    rcases step with step | step
    · exact (levels.pos step).trans ih
    · exact (levels.neg step).le.trans ih

theorem exists_leveling_iff (finite : { p : α × α | neg p.1 p.2 }.Finite) :
    (∃ σ, Leveling pos neg σ) ↔ ¬NegativeCycle pos neg := by
  constructor
  · rintro ⟨σ, levels⟩ ⟨r, q, step, back⟩
    exact absurd (levels.neg step) (levels.le_of_reaches back).not_gt
  · intro acyclic
    -- The level counts the negative dependencies that can be reached.
    let below (r : α) : Set (α × α) := { p | neg p.1 p.2 ∧
      Relation.ReflTransGen (fun r q => pos r q ∨ neg r q) r p.1 }
    have bounded : ∀ r, (below r).Finite := fun r => finite.subset fun p mem => mem.1
    have shrinks : ∀ {r q}, pos r q ∨ neg r q → below q ⊆ below r :=
      fun step p mem => ⟨mem.1, .head step mem.2⟩
    refine ⟨fun r => (below r).ncard, fun step => ?_, fun {r q} step => ?_⟩
    · exact Set.ncard_le_ncard (shrinks (.inl step)) (bounded _)
    · -- The dependency itself cannot be reached from its end.
      refine Set.ncard_lt_ncard ⟨shrinks (.inr step), fun sub => ?_⟩ (bounded _)
      have here : (r, q) ∈ below r := ⟨step, .refl⟩
      exact acyclic ⟨r, q, step, (sub here).2⟩

variable (pos neg) in
/-- The least levels. -/
noncomputable def leastLevel (r : α) : Nat := sInf { n | ∃ σ, Leveling pos neg σ ∧ σ r = n }

theorem leastLevel_le {σ : α → Nat} (levels : Leveling pos neg σ) (r : α) :
    leastLevel pos neg r ≤ σ r :=
  Nat.sInf_le ⟨σ, levels, rfl⟩

theorem leveling_leastLevel (exist : ∃ σ, Leveling pos neg σ) :
    Leveling pos neg (leastLevel pos neg) := by
  obtain ⟨σ, levels⟩ := exist
  -- Some levels are least at one place, and not below the least anywhere.
  have attained (r : α) : ∃ τ, Leveling pos neg τ ∧ τ r = leastLevel pos neg r := by
    have some_levels : { n | ∃ τ, Leveling pos neg τ ∧ τ r = n }.Nonempty := ⟨σ r, σ, levels, rfl⟩
    exact Nat.sInf_mem some_levels
  constructor
  · intro r q step
    obtain ⟨τ, levels, least⟩ := attained r
    exact (leastLevel_le levels q).trans ((levels.pos step).trans least.le)
  · intro r q step
    obtain ⟨τ, levels, least⟩ := attained r
    exact Nat.lt_of_le_of_lt (leastLevel_le levels q) (Nat.lt_of_lt_of_le (levels.neg step)
      least.le)

end

abbrev Interp (Rel Tup : Type*) := Rel → Set Tup

/--
One step of derivation from positive and negative information.

It is monotone in the positive one, and reads only the relations that a relation depends on.
-/
structure Consequence (Rel Tup : Type*) where
  pos : Rel → Set Rel
  /-- The relations on whose absence a relation depends. -/
  neg : Rel → Set Rel
  step : Interp Rel Tup → Interp Rel Tup → Interp Rel Tup
  mono : ∀ {P P' N}, P ≤ P' → step P N ≤ step P' N
  /-- Only the relations that are depended on matter. -/
  depends : ∀ {P P' N N' r}, (∀ q ∈ pos r, P q = P' q) → (∀ q ∈ neg r, N q = N' q) →
    step P N r = step P' N' r

namespace Consequence

variable {Rel Tup : Type*} (op : Consequence Rel Tup)

/-- The least interpretation that is closed under derivation, with the negative information fixed. -/
def least (N : Interp Rel Tup) : Interp Rel Tup :=
  OrderHom.lfp ⟨fun P => op.step P N, fun _ _ le => op.mono le⟩

theorem step_least (N : Interp Rel Tup) : op.step (op.least N) N = op.least N :=
  OrderHom.map_lfp ⟨fun P => op.step P N, fun _ _ le => op.mono le⟩

theorem least_le {N P : Interp Rel Tup} (closed : op.step P N ≤ P) : op.least N ≤ P :=
  OrderHom.lfp_le ⟨fun P => op.step P N, fun _ _ le => op.mono le⟩ closed

/-- Levels of relations along their dependencies. -/
abbrev Stratifies (σ : Rel → Nat) : Prop :=
  Leveling (fun r q => q ∈ op.pos r) (fun r q => q ∈ op.neg r) σ

/-- An interpretation is a model where it is what it derives with its own absences. -/
def Stable (M : Interp Rel Tup) : Prop := op.least M = M

variable {op} {σ : Rel → Nat}

theorem least_le_upto (strata : op.Stratifies σ) {N P : Interp Rel Tup} {k : Nat}
    (closed : ∀ q, σ q ≤ k → op.step P N q ≤ P q) {r : Rel} (within : σ r ≤ k) :
    op.least N r ≤ P r := by
  classical
  -- Above the level anything is allowed.
  let bound : Interp Rel Tup := fun q => if σ q ≤ k then P q else Set.univ
  have below : op.least N ≤ bound := by
    refine op.least_le fun q => ?_
    by_cases low : σ q ≤ k
    · have same : op.step bound N q = op.step P N q :=
        op.depends (fun p mem => if_pos ((strata.pos mem).trans low)) fun _ _ => rfl
      rw [same]
      exact (closed q low).trans (if_pos low).symm.subset
    · exact (Set.subset_univ _).trans (if_neg low).symm.subset
  exact (below r).trans (if_pos within).subset

theorem least_le_of_agree (strata : op.Stratifies σ) {N N' : Interp Rel Tup} {k : Nat}
    (agree : ∀ r, σ r < k → N r = N' r) {r : Rel} (within : σ r ≤ k) :
    op.least N r ≤ op.least N' r := by
  refine least_le_upto strata (fun q low => ?_) within
  have same : op.step (op.least N') N q = op.step (op.least N') N' q :=
    op.depends (fun _ _ => rfl) fun p mem =>
      agree p (Nat.lt_of_lt_of_le (strata.neg mem) low)
  rw [same, op.step_least]

theorem least_congr (strata : op.Stratifies σ) {N N' : Interp Rel Tup} {k : Nat}
    (agree : ∀ r, σ r < k → N r = N' r) {r : Rel} (within : σ r ≤ k) :
    op.least N r = op.least N' r :=
  le_antisymm (least_le_of_agree strata agree within)
    (least_le_of_agree strata (fun q low => (agree q low).symm) within)

theorem stable_unique (strata : op.Stratifies σ) {M M' : Interp Rel Tup}
    (stable : op.Stable M) (stable' : op.Stable M') : M = M' := by
  -- The induction is on the level.
  have levels : ∀ k r, σ r < k → M r = M' r := by
    intro k
    induction k with
    | zero => exact fun r low => absurd low (Nat.not_lt_zero _)
    | succ k ih =>
      intro r low
      rw [← stable, ← stable']
      exact least_congr strata ih (Nat.lt_succ_iff.mp low)
  exact funext fun r => levels (σ r + 1) r (Nat.lt_succ_self _)

variable (op σ) in
/-- The relations below a level, each derived after the levels before it. -/
noncomputable def belowLevel : Nat → Interp Rel Tup
  | 0 => fun _ => ∅
  | k + 1 => fun r => open Classical in
    if σ r < k then belowLevel k r else if σ r = k then op.least (belowLevel k) r else ∅

variable (op σ) in
/-- The model along a stratification: level by level, the least closed interpretation. -/
noncomputable def stratifiedModel : Interp Rel Tup := fun r => op.least (belowLevel op σ (σ r)) r

theorem belowLevel_eq {k : Nat} {r : Rel} (low : σ r < k) :
    belowLevel op σ k r = stratifiedModel op σ r := by
  induction k with
  | zero => exact absurd low (Nat.not_lt_zero _)
  | succ k ih =>
    by_cases lower : σ r < k
    · have copied : belowLevel op σ (k + 1) r = belowLevel op σ k r := if_pos lower
      rw [copied, ih lower]
    · have same : σ r = k := by omega
      have derived : belowLevel op σ (k + 1) r = op.least (belowLevel op σ k) r :=
        (if_neg lower).trans (if_pos same)
      rw [derived, stratifiedModel, same]

theorem stratifiedModel_stable (strata : op.Stratifies σ) : op.Stable (stratifiedModel op σ) := by
  funext r
  -- Below its own level a relation finds the model.
  refine least_congr strata (fun q low => ?_) (Nat.le_refl (σ r))
  exact (belowLevel_eq low).symm

theorem eq_stratifiedModel (strata : op.Stratifies σ) {M : Interp Rel Tup}
    (stable : op.Stable M) : M = stratifiedModel op σ :=
  stable_unique strata stable (stratifiedModel_stable strata)

end Consequence

end Nixie
