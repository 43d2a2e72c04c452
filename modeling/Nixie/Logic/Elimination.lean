import Mathlib.Data.Set.Function

/-! Variables that are defined by the others can be eliminated, and their values found again. -/

namespace Nixie.Logic

open Function

variable {X V R : Type*}

/-- Among the assignments of a set, the value depends on the given variables only. -/
def DependsWithin (W : Set (X → V)) (D : Set X) (f : (X → V) → R) : Prop :=
  ∀ ν ∈ W, ∀ ν' ∈ W, Set.EqOn ν ν' D → f ν = f ν'

variable [DecidableEq X] {W : Set (X → V)} {D : Set X} {x : X}

theorem eqOn_update {ν ν' : X → V} (agree : Set.EqOn ν ν' (D \ {x})) (v : V) :
    Set.EqOn (update ν x v) (update ν' x v) D := by
  intro y mem
  by_cases same : y = x
  · subst same
    rw [update_self, update_self]
  · rw [update_of_ne same, update_of_ne same]
    exact agree ⟨mem, same⟩

theorem DependsWithin.definition {e : (X → V) → V}
    (depends : DependsWithin W D fun ν => ν x = e ν)
    (closed : ∀ ν ∈ W, ∀ ν' ∈ W, update ν x (e ν') ∈ W)
    (free : ∀ ν ∈ W, ∀ v, e (update ν x v) = e ν) : DependsWithin W (D \ {x}) e := by
  intro ν lies ν' lies' agree
  -- The definition is met after the update, and hence by the other assignment too.
  have met := depends _ (closed ν lies ν lies) _ (closed ν' lies' ν lies)
    (eqOn_update agree (e ν))
  simp only [update_self, free ν lies, free ν' lies', eq_iff_iff, true_iff] at met
  exact met

theorem DependsWithin.replace {e : (X → V) → V} {f : (X → V) → R} (depends : DependsWithin W D f)
    (definition : DependsWithin W (D \ {x}) e)
    (closed : ∀ ν ∈ W, ∀ ν' ∈ W, update ν x (e ν') ∈ W) :
    DependsWithin W (D \ {x}) fun ν => f (update ν x (e ν)) := by
  intro ν lies ν' lies' agree
  have same := definition ν lies ν' lies' agree
  refine depends _ (closed ν lies ν lies) _ (closed ν' lies' ν' lies') ?_
  rw [same]
  exact eqOn_update agree (e ν')

/-- A variable is eliminated: the one set says its definition and the other set. -/
structure Eliminates (W : Set (X → V)) (x : X) (e : (X → V) → V) (A B : Set (X → V)) : Prop where
  closed : ∀ ν ∈ W, update ν x (e ν) ∈ W
  keeps : ∀ ν ∈ W, ν ∈ A → ν ∈ B
  restores : ∀ ν ∈ W, ν ∈ B → update ν x (e ν) ∈ A

inductive Eliminated (W : Set (X → V)) :
    List (X × ((X → V) → V)) → Set (X → V) → Set (X → V) → Prop
  | nil (A : Set (X → V)) : Eliminated W [] A A
  | cons {x : X} {e : (X → V) → V} {rest : List (X × ((X → V) → V))} {A B C : Set (X → V)}
      (first : Eliminates W x e A B) (others : Eliminated W rest B C) :
      Eliminated W ((x, e) :: rest) A C

/-- The values of the eliminated variables, the last one first. -/
def restore : List (X × ((X → V) → V)) → (X → V) → X → V
  | [], ν => ν
  | (x, e) :: rest, ν => update (restore rest ν) x (e (restore rest ν))

namespace Eliminated

variable {chain : List (X × ((X → V) → V))} {A B : Set (X → V)}

theorem keeps (eliminated : Eliminated W chain A B) {ν : X → V} (lies : ν ∈ W) (model : ν ∈ A) :
    ν ∈ B := by
  induction eliminated with
  | nil => exact model
  | cons first _ ih => exact ih (first.keeps ν lies model)

end Eliminated

end Nixie.Logic
