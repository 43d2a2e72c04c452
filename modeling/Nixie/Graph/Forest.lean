import Mathlib.Algebra.BigOperators.Group.List.Basic
import Mathlib.Algebra.Ring.Int.Defs
import Nixie.Logic.CongruenceClosure

/-! Forests grown edge by edge, and pairings that a set of their edges connects. -/

namespace Nixie.Forest

open List

variable {α ε : Type*} {ends : ε → α × α}

def Joins (ends : ε → α × α) (edges : ε → Prop) : α → α → Prop :=
  Relation.EqvGen fun x y => ∃ edge, edges edge ∧ ends edge = (x, y)

namespace Joins

variable {edges larger : ε → Prop} {x y z : α}

theorem edge {edge : ε} (mem : edges edge) : Joins ends edges (ends edge).1 (ends edge).2 :=
  .rel _ _ ⟨edge, mem, rfl⟩

theorem refl (x : α) : Joins ends edges x x := Relation.EqvGen.refl x

theorem symm (joined : Joins ends edges x y) : Joins ends edges y x :=
  Relation.EqvGen.symm _ _ joined

theorem trans (left : Joins ends edges x y) (right : Joins ends edges y z) : Joins ends edges x z :=
  Relation.EqvGen.trans _ _ _ left right

theorem least {related : α → α → Prop} (equivalence : Equivalence related)
    (contains : ∀ edge, edges edge → related (ends edge).1 (ends edge).2)
    (joined : Joins ends edges x y) : related x y := by
  induction joined with
  | rel x y step =>
    obtain ⟨edge, mem, same⟩ := step
    have := contains edge mem
    rw [same] at this
    exact this
  | refl x => exact equivalence.refl x
  | symm x y _ ih => exact equivalence.symm ih
  | trans x y z _ _ left right => exact equivalence.trans left right

theorem equivalence : Equivalence (Joins ends edges) := ⟨refl, symm, trans⟩

theorem mono (included : ∀ edge, edges edge → larger edge) (joined : Joins ends edges x y) :
    Joins ends larger x y :=
  joined.least equivalence fun _ mem => .edge (included _ mem)

theorem constant {β : Type*} {value : α → β}
    (along : ∀ edge, edges edge → value (ends edge).1 = value (ends edge).2)
    (joined : Joins ends edges x y) : value x = value y := by
  have related : Equivalence fun x y => value x = value y := ⟨fun _ => rfl, Eq.symm, Eq.trans⟩
  exact @least _ _ _ _ x y (fun x y => value x = value y) related along joined

theorem cons_iff {edge : ε} {older : List ε} : Joins ends (· ∈ edge :: older) x y ↔
      Joins ends (· ∈ older) x y ∨
        (Joins ends (· ∈ older) x (ends edge).1 ∧ Joins ends (· ∈ older) (ends edge).2 y) ∨
        (Joins ends (· ∈ older) x (ends edge).2 ∧ Joins ends (· ∈ older) (ends edge).1 y) := by
  constructor
  · intro joined
    induction joined with
    | rel x y step =>
      obtain ⟨other, mem, same⟩ := step
      rcases mem_cons.mp mem with rfl | old
      · rw [same]
        exact .inr (.inl ⟨refl x, refl y⟩)
      · exact .inl (.rel _ _ ⟨other, old, same⟩)
    | refl x => exact .inl (refl x)
    | symm x y _ ih =>
      rcases ih with old | ⟨left, right⟩ | ⟨left, right⟩
      · exact .inl old.symm
      · exact .inr (.inr ⟨right.symm, left.symm⟩)
      · exact .inr (.inl ⟨right.symm, left.symm⟩)
    | trans x y z _ _ first second =>
      -- Crossing the new edge twice leads back to the side where the path began.
      rcases first with old | ⟨left, right⟩ | ⟨left, right⟩ <;>
        rcases second with old' | ⟨left', right'⟩ | ⟨left', right'⟩
      · exact .inl (old.trans old')
      · exact .inr (.inl ⟨old.trans left', right'⟩)
      · exact .inr (.inr ⟨old.trans left', right'⟩)
      · exact .inr (.inl ⟨left, right.trans old'⟩)
      · exact .inr (.inl ⟨left, right'⟩)
      · exact .inl (left.trans right')
      · exact .inr (.inr ⟨left, right.trans old'⟩)
      · exact .inl (left.trans right')
      · exact .inr (.inr ⟨left, right'⟩)
  · have more : ∀ {x y}, Joins ends (· ∈ older) x y → Joins ends (· ∈ edge :: older) x y :=
      fun joined => joined.mono fun _ mem => mem_cons_of_mem _ mem
    have crossing : Joins ends (· ∈ edge :: older) (ends edge).1 (ends edge).2 :=
      .edge (mem_cons_self ..)
    rintro (old | ⟨left, right⟩ | ⟨left, right⟩)
    · exact more old
    · exact ((more left).trans crossing).trans (more right)
    · exact ((more left).trans crossing.symm).trans (more right)

end Joins

/-- Every edge, newest first, connected two parts that the older edges did not connect. -/
def IsForest (ends : ε → α × α) : List ε → Prop
  | [] => True
  | edge :: older =>
    ¬ Joins ends (· ∈ older) (ends edge).1 (ends edge).2 ∧ IsForest ends older

theorem IsForest.exists_potential {log : List ε} (forest : IsForest ends log)
    (weight : ε → Int) :
    ∃ value : α → Int, ∀ edge ∈ log, value (ends edge).1 - value (ends edge).2 = weight edge := by
  classical
  -- A new edge shifts the part on its second side, where all older differences stay the same.
  induction log with
  | nil => exact ⟨fun _ => 0, by simp⟩
  | cons edge older ih =>
    obtain ⟨apart, forest⟩ := forest
    obtain ⟨value, differences⟩ := ih forest
    let shift := value (ends edge).1 - value (ends edge).2 - weight edge
    refine ⟨fun x => if Joins ends (· ∈ older) (ends edge).2 x then value x + shift
      else value x, ?_⟩
    intro other mem
    rcases mem_cons.mp mem with rfl | old
    · have near : ¬ Joins ends (· ∈ older) (ends other).2 (ends other).1 :=
        fun joined => apart joined.symm
      simp only [if_neg near, if_pos (Joins.refl _)]
      omega
    · have same := differences other old
      have crossing : Joins ends (· ∈ older) (ends other).1 (ends other).2 := .edge old
      by_cases shifted : Joins ends (· ∈ older) (ends edge).2 (ends other).1
      · simp only [if_pos shifted, if_pos (shifted.trans crossing)]
        omega
      · have still : ¬ Joins ends (· ∈ older) (ends edge).2 (ends other).2 :=
          fun joined => shifted (joined.trans crossing.symm)
        simp only [if_neg shifted, if_neg still]
        exact same

theorem sum_eq_of_zip {value : α → Int} {args others : List α}
    (length : args.length = others.length)
    (equal : ∀ pair ∈ args.zip others, value pair.1 = value pair.2) :
    (args.map value).sum = (others.map value).sum := by
  rw [map_eq_map_iff_zip.mpr ⟨length, equal⟩]

theorem sum_indicator {lies : α → Prop} [DecidablePred lies] (args : List α) :
    (args.map fun x => if lies x then (1 : Int) else 0).sum =
      (args.countP fun x => lies x : Nat) := by
  induction args with
  | nil => rfl
  | cons arg rest ih =>
    rw [map_cons, sum_cons, countP_cons, ih]
    by_cases mem : lies arg
    · simp only [mem, if_true, decide_true]
      omega
    · simp only [mem, if_false, decide_false]
      simp

/-- Two pairings of the same lists, one along older edges of a forest and one along a set of its
edges, give a pairing along the older edges of the set. -/
theorem IsForest.exists_pairing {newer older : List ε} (forest : IsForest ends (newer ++ older))
    {chosen : ε → Prop} {args others first second : List α} (orderFirst : first.Perm others)
    (orderSecond : second.Perm others) (lengthFirst : args.length = first.length)
    (lengthSecond : args.length = second.length)
    (alongOlder : ∀ pair ∈ args.zip first, Joins ends (· ∈ older) pair.1 pair.2)
    (alongChosen : ∀ pair ∈ args.zip second,
      Joins ends (fun edge => chosen edge ∧ edge ∈ newer ++ older) pair.1 pair.2) :
    ∃ arranged : List α, arranged.Perm others ∧ args.length = arranged.length ∧
      ∀ pair ∈ args.zip arranged,
        Joins ends (fun edge => chosen edge ∧ edge ∈ older) pair.1 pair.2 := by
  classical
  let both : ε → Prop := fun edge => chosen edge ∧ edge ∈ older
  -- Each class of the chosen older edges holds as many arguments of one side as of the other.
  have balanced : ∀ top : α, (args.countP fun x => Joins ends both top x) =
      others.countP fun x => Joins ends both top x := by
    intro top
    let indicator : α → Int := fun x => if Joins ends both top x then 1 else 0
    -- The potential has the indicator's differences along older edges and none along newer ones.
    obtain ⟨value, differences⟩ := forest.exists_potential fun edge =>
      if edge ∈ older then indicator (ends edge).1 - indicator (ends edge).2 else 0
    have onOlder : ∀ pair ∈ args.zip first,
        value pair.1 - indicator pair.1 = value pair.2 - indicator pair.2 := by
      intro pair mem
      refine @Joins.constant _ _ _ _ _ _ _ (fun x => value x - indicator x) ?_
        (alongOlder pair mem)
      intro edge old
      have difference := differences edge (mem_append_right newer old)
      rw [if_pos old] at difference
      omega
    have onChosen : ∀ pair ∈ args.zip second, value pair.1 = value pair.2 := by
      intro pair mem
      refine (alongChosen pair mem).constant ?_
      intro edge ⟨chose, inLog⟩
      have difference := differences edge inLog
      by_cases old : edge ∈ older
      · have crossing : Joins ends both (ends edge).1 (ends edge).2 := .edge ⟨chose, old⟩
        have sides : Joins ends both top (ends edge).1 ↔ Joins ends both top (ends edge).2 :=
          ⟨fun joined => joined.trans crossing, fun joined => joined.trans crossing.symm⟩
        have same : indicator (ends edge).1 = indicator (ends edge).2 := by
          simp only [indicator, sides]
        rw [if_pos old, same] at difference
        omega
      · rw [if_neg old] at difference
        omega
    have total : (args.map value).sum = (others.map value).sum :=
      (sum_eq_of_zip lengthSecond onChosen).trans (orderSecond.map value).sum_eq
    have shifted : (args.map fun x => value x - indicator x).sum =
        (others.map fun x => value x - indicator x).sum :=
      (sum_eq_of_zip lengthFirst onOlder).trans
        (orderFirst.map fun x => value x - indicator x).sum_eq
    have split : ∀ list : List α, (list.map fun x => value x - indicator x).sum =
        (list.map value).sum - (list.map indicator).sum := by
      intro list
      induction list with
      | nil => rfl
      | cons x rest ih =>
        simp only [map_cons, sum_cons, ih]
        omega
    have counts : (args.map indicator).sum = (others.map indicator).sum := by
      rw [split, split] at shifted
      omega
    rw [sum_indicator, sum_indicator] at counts
    exact_mod_cast counts
  let classes : Setoid α := ⟨Joins ends both, Joins.equivalence⟩
  let class_ : α → Quotient classes := fun x => ⟦x⟧
  have perm : (args.map class_).Perm (others.map class_) := by
    rw [perm_iff_count]
    intro top
    obtain ⟨top, rfl⟩ := Quotient.exists_rep top
    have count : ∀ list : List α, (list.map class_).count ⟦top⟧ =
        list.countP fun x => Joins ends both top x := by
      intro list
      rw [count, countP_map]
      refine countP_congr fun x _ => ?_
      have equal : class_ x = ⟦top⟧ ↔ Joins ends both top x :=
        ⟨fun same => (Quotient.exact same.symm : classes.r top x),
          fun joined => Quotient.sound (s := classes) joined.symm⟩
      simp [equal]
    rw [count, count, balanced top]
  obtain ⟨arranged, order, images⟩ := exists_arranged_of_perm perm
  obtain ⟨length, pairs⟩ := map_eq_map_iff_zip.mp images
  exact ⟨arranged, order, length, fun pair mem => Quotient.exact (pairs pair mem)⟩

/-- Nodes that older edges of a forest connect, and a set of its edges as well, are connected by
the older edges of the set. -/
theorem IsForest.joins_both {newer older : List ε} (forest : IsForest ends (newer ++ older))
    {chosen : ε → Prop} {x y : α} (alongOlder : Joins ends (· ∈ older) x y)
    (alongChosen : Joins ends (fun edge => chosen edge ∧ edge ∈ newer ++ older) x y) :
    Joins ends (fun edge => chosen edge ∧ edge ∈ older) x y := by
  -- Lists of one node can be paired in one way only.
  obtain ⟨arranged, order, _, pairs⟩ := @IsForest.exists_pairing _ _ ends newer older forest chosen
    [x] [y] [y] [y] (.refl _) (.refl _) rfl rfl (by simpa using alongOlder)
    (by simpa using alongChosen)
  have only : arranged = [y] := perm_singleton.mp order
  subst only
  exact pairs (x, y) (by simp)

theorem IsForest.exists_arranged {newer older : List ε} (forest : IsForest ends (newer ++ older))
    {chosen : ε → Prop} {commutative : Bool} {args others first second : List α}
    (orderFirst : Arranged commutative first others)
    (orderSecond : Arranged commutative second others) (lengthFirst : args.length = first.length)
    (lengthSecond : args.length = second.length)
    (alongOlder : ∀ pair ∈ args.zip first, Joins ends (· ∈ older) pair.1 pair.2)
    (alongChosen : ∀ pair ∈ args.zip second,
      Joins ends (fun edge => chosen edge ∧ edge ∈ newer ++ older) pair.1 pair.2) :
    ∃ arranged : List α, Arranged commutative arranged others ∧ args.length = arranged.length ∧
      ∀ pair ∈ args.zip arranged,
        Joins ends (fun edge => chosen edge ∧ edge ∈ older) pair.1 pair.2 := by
  cases commutative with
  | true =>
    simp only [Arranged, if_true] at orderFirst orderSecond ⊢
    exact forest.exists_pairing orderFirst orderSecond lengthFirst lengthSecond alongOlder
      alongChosen
  | false =>
    have sameFirst : first = others := by simpa [Arranged] using orderFirst
    have sameSecond : second = others := by simpa [Arranged] using orderSecond
    subst sameFirst
    subst sameSecond
    exact ⟨second, by simp [Arranged], lengthFirst, fun pair mem =>
      forest.joins_both (alongOlder pair mem) (alongChosen pair mem)⟩

end Nixie.Forest
