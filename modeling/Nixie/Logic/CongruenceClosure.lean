import Mathlib.Data.List.Perm.Basic
import Mathlib.Data.List.Sort

/-! Congruence closure of equations between nodes of which some are function applications. -/

namespace Nixie

open List

variable {α φ β : Type*}

/-- Two argument lists are the same up to the order that the symbol ignores. -/
def Arranged (commutative : Bool) (args others : List α) : Prop :=
  -- Only a commutative symbol may list its arguments in another order.
  if commutative then args.Perm others else args = others

inductive Closure (app : α → Option (φ × List α)) (commutative : φ → Bool)
    (base : α → α → Prop) : α → α → Prop where
  | base {x y : α} (given : base x y) : Closure app commutative base x y
  | refl (x : α) : Closure app commutative base x x
  | symm {x y : α} (equal : Closure app commutative base x y) : Closure app commutative base y x
  | trans {x y z : α} (left : Closure app commutative base x y)
      (right : Closure app commutative base y z) : Closure app commutative base x z
  | congr {x y : α} {func : φ} {args others arranged : List α} (left : app x = some (func, args))
      (right : app y = some (func, others))
      (order : Arranged (commutative func) arranged others) (length : args.length = arranged.length)
      (equal : ∀ pair ∈ args.zip arranged, Closure app commutative base pair.1 pair.2) :
      Closure app commutative base x y

namespace Closure

variable {app : α → Option (φ × List α)} {commutative : φ → Bool} {base : α → α → Prop}

theorem mono {larger : α → α → Prop} (included : ∀ x y, base x y → larger x y) {x y : α}
    (equal : Closure app commutative base x y) : Closure app commutative larger x y := by
  -- The derivation is kept, rule by rule.
  induction equal with
  | base given => exact .base (included _ _ given)
  | refl x => exact .refl x
  | symm _ ih => exact .symm ih
  | trans _ _ left right => exact .trans left right
  | congr left right order length _ ih => exact .congr left right order length ih

theorem extend {larger : α → Option (φ × List α)}
    (included : ∀ x value, app x = some value → larger x = some value) {x y : α}
    (equal : Closure app commutative base x y) : Closure larger commutative base x y := by
  -- The derivation is kept, rule by rule.
  induction equal with
  | base given => exact .base given
  | refl x => exact .refl x
  | symm _ ih => exact .symm ih
  | trans _ _ left right => exact .trans left right
  | congr left right order length _ ih =>
    exact .congr (included _ _ left) (included _ _ right) order length ih

theorem least {related : α → α → Prop} (equivalence : Equivalence related)
    (contains : ∀ x y, base x y → related x y)
    (congruent : ∀ {x y : α} {func : φ} {args others arranged : List α},
      app x = some (func, args) → app y = some (func, others) →
      Arranged (commutative func) arranged others → args.length = arranged.length →
      (∀ pair ∈ args.zip arranged, related pair.1 pair.2) → related x y)
    {x y : α} (equal : Closure app commutative base x y) : related x y := by
  induction equal with
  | base given => exact contains _ _ given
  | refl x => exact equivalence.refl x
  | symm _ ih => exact equivalence.symm ih
  | trans _ _ left right => exact equivalence.trans left right
  | congr left right order length _ ih => exact congruent left right order length ih

theorem equivalence : Equivalence (Closure app commutative base) := ⟨.refl, .symm, .trans⟩

end Closure

theorem exists_arranged_of_perm {image : α → β} {args others : List α}
    (same : (args.map image).Perm (others.map image)) :
    ∃ arranged : List α, arranged.Perm others ∧ args.map image = arranged.map image := by
  -- The first argument picks a partner, and the remaining lists agree again.
  induction args generalizing others with
  | nil =>
    have none_ : others = [] := by simpa using same.symm
    subst none_
    exact ⟨[], .refl _, rfl⟩
  | cons arg rest ih =>
    have mem : image arg ∈ others.map image := same.subset (by simp)
    obtain ⟨partner, lies, equal⟩ := mem_map.mp mem
    obtain ⟨before, after, rfl⟩ := append_of_mem lies
    have split : (before ++ partner :: after).Perm (partner :: (before ++ after)) := perm_middle
    have remaining : (rest.map image).Perm ((before ++ after).map image) := by
      have whole := same.trans (split.map image)
      rw [map_cons, map_cons, equal] at whole
      exact whole.cons_inv
    obtain ⟨arranged, order, images⟩ := ih remaining
    refine ⟨partner :: arranged, (order.cons partner).trans split.symm, ?_⟩
    rw [map_cons, map_cons, equal, images]

/-- Canonical form of an argument list: sorted for a commutative symbol. -/
def canonicalOrder (commutative : Bool) (images : List Nat) : List Nat :=
  if commutative then images.insertionSort (· ≤ ·) else images

theorem insertionSort_eq_iff {left right : List Nat} :
    left.insertionSort (· ≤ ·) = right.insertionSort (· ≤ ·) ↔ left.Perm right := by
  constructor
  · intro equal
    exact (perm_insertionSort _ left).symm.trans (equal ▸ perm_insertionSort _ right)
  · intro perm
    have whole := (perm_insertionSort (· ≤ ·) left).trans
      (perm.trans (perm_insertionSort (· ≤ ·) right).symm)
    exact whole.eq_of_pairwise' (pairwise_insertionSort _ left)
      (pairwise_insertionSort _ right)

theorem canonicalOrder_eq_iff {commutative : Bool} {image : α → Nat} {args others : List α} :
    canonicalOrder commutative (args.map image) = canonicalOrder commutative (others.map image) ↔
      ∃ arranged : List α, Arranged commutative arranged others ∧
        args.map image = arranged.map image := by
  cases commutative with
  | false =>
    constructor
    · intro equal
      exact ⟨others, rfl, by simpa [canonicalOrder] using equal⟩
    · rintro ⟨arranged, order, equal⟩
      have same : arranged = others := by simpa [Arranged] using order
      simpa [canonicalOrder, same] using equal
  | true =>
    rw [canonicalOrder, canonicalOrder, if_pos rfl, if_pos rfl, insertionSort_eq_iff]
    constructor
    · intro perm
      obtain ⟨arranged, order, equal⟩ := exists_arranged_of_perm perm
      exact ⟨arranged, by simpa [Arranged] using order, equal⟩
    · rintro ⟨arranged, order, equal⟩
      have perm : arranged.Perm others := by simpa [Arranged] using order
      rw [equal]
      exact perm.map image

theorem map_eq_map_iff_zip {image : α → β} {args others : List α} :
    args.map image = others.map image ↔
      args.length = others.length ∧ ∀ pair ∈ args.zip others, image pair.1 = image pair.2 := by
  induction args generalizing others with
  | nil => cases others <;> simp
  | cons arg rest ih =>
    cases others with
    | nil => simp
    | cons other others =>
      simp only [map_cons, cons.injEq, ih, length_cons, Nat.add_right_cancel_iff,
        zip_cons_cons, forall_mem_cons]
      exact and_left_comm

section

variable {app : α → Option (φ × List α)} {commutative : φ → Bool} {base : α → α → Prop}

/-- Values of the nodes and of the function symbols that agree on every application. -/
structure Interprets (app : α → Option (φ × List α)) (commutative : φ → Bool) (value : α → β)
    (apply : φ → List β → β) : Prop where
  app : ∀ {x func args}, app x = some (func, args) → value x = apply func (args.map value)
  order : ∀ {func xs ys}, commutative func = true → xs.Perm ys → apply func xs = apply func ys

theorem Closure.holds {value : α → β} {apply : φ → List β → β}
    (interprets : Interprets app commutative value apply)
    (given : ∀ x y, base x y → value x = value y) {x y : α}
    (equal : Closure app commutative base x y) : value x = value y := by
  refine @least _ _ _ _ _ (fun x y => value x = value y)
    ⟨fun _ => rfl, Eq.symm, Eq.trans⟩ given ?_ _ _ equal
  intro x y func args others arranged left right order length pairs
  rw [interprets.app left, interprets.app right, map_eq_map_iff_zip.mpr ⟨length, pairs⟩]
  unfold Arranged at order
  split at order
  · exact interprets.order ‹_› (order.map value)
  · rw [order]

/-- The image of the applications whose arguments have given images. -/
noncomputable def applied [Nonempty α] (app : α → Option (φ × List α)) (commutative : φ → Bool)
    (image : α → Nat) (func : φ) (images : List Nat) : Nat :=
  image (Classical.epsilon fun x => ∃ args, app x = some (func, args) ∧
    canonicalOrder (commutative func) (args.map image) = canonicalOrder (commutative func) images)

theorem interprets_applied [Nonempty α] {image : α → Nat}
    (congruent : ∀ {x y func args others arranged}, app x = some (func, args) →
      app y = some (func, others) → Arranged (commutative func) arranged others →
      args.map image = arranged.map image → image x = image y) :
    Interprets app commutative image (applied app commutative image) where
  app := by
    intro x func args here
    -- Some application has these images: the node itself.
    obtain ⟨others, taken, same⟩ := Classical.epsilon_spec (p := fun y => ∃ others,
      app y = some (func, others) ∧ canonicalOrder (commutative func) (others.map image) =
        canonicalOrder (commutative func) (args.map image)) ⟨x, args, here, rfl⟩
    obtain ⟨arranged, order, images⟩ := canonicalOrder_eq_iff.mp same.symm
    exact congruent here taken order images
  order := by
    intro func xs ys symmetric perm
    have same : canonicalOrder true xs = canonicalOrder true ys := insertionSort_eq_iff.mpr perm
    rw [applied, applied, symmetric, same]

end

end Nixie
