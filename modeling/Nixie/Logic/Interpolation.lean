import Mathlib.Data.Set.Basic

/-! Partial interpolants of clauses, and what resolution does to them. -/

namespace Nixie

variable {Atom : Type*} {A B form form' : Set (Atom → Bool)} {left right : Set Atom}
  {clause clause' resolvent : Set (Atom × Bool)} {atom : Atom} {sign : Bool}

/-- Some literal of a clause with its atom in a set is true. -/
def SomeHolds (clause : Set (Atom × Bool)) (atoms : Set Atom) (ν : Atom → Bool) : Prop :=
  ∃ lit ∈ clause, lit.1 ∈ atoms ∧ ν lit.1 = lit.2

/-- What is left of two clauses with a literal and its complement. -/
def binaryResolvent (atom : Atom) (sign : Bool) (clause other : Set (Atom × Bool)) :
    Set (Atom × Bool) :=
  (clause \ {(atom, sign)}) ∪ (other \ {(atom, !sign)})

/--
A partial interpolant of a clause, between two sets of assignments.

The first set reaches it up to the left literals, and with the second set it gives the right ones.
-/
structure PartialInterpolant (A B : Set (Atom → Bool)) (left right : Set Atom)
    (clause : Set (Atom × Bool)) (form : Set (Atom → Bool)) : Prop where
  reach : ∀ ν ∈ A, ν ∈ form ∨ SomeHolds clause left ν
  refute : ∀ ν ∈ B, ν ∈ form → SomeHolds clause right ν

theorem someHolds_resolve {ν : Atom → Bool} {atoms : Set Atom}
    (first : SomeHolds clause atoms ν) (second : SomeHolds clause' atoms ν) :
    SomeHolds (binaryResolvent atom sign clause clause') atoms ν := by
  obtain ⟨lit, mem, lies, holds⟩ := first
  by_cases same : lit = (atom, sign)
  · -- The literal is true, and so the literal of the other clause is not its complement.
    subst same
    obtain ⟨lit', mem', lies', holds'⟩ := second
    refine ⟨lit', .inr ⟨mem', fun same' => ?_⟩, lies', holds'⟩
    have same' : lit' = (atom, !sign) := same'
    subst same'
    exact Bool.not_ne_self sign (holds'.symm.trans holds)
  · exact ⟨lit, .inl ⟨mem, same⟩, lies, holds⟩

theorem someHolds_resolve_left {ν : Atom → Bool} {atoms : Set Atom} (apart : atom ∉ atoms)
    (holds : SomeHolds clause atoms ν) :
    SomeHolds (binaryResolvent atom sign clause clause') atoms ν := by
  obtain ⟨lit, mem, lies, holds⟩ := holds
  refine ⟨lit, .inl ⟨mem, fun same => apart ?_⟩, lies, holds⟩
  have same : lit = (atom, sign) := same
  subst same
  exact lies

theorem someHolds_resolve_right {ν : Atom → Bool} {atoms : Set Atom} (apart : atom ∉ atoms)
    (holds : SomeHolds clause' atoms ν) :
    SomeHolds (binaryResolvent atom sign clause clause') atoms ν := by
  obtain ⟨lit, mem, lies, holds⟩ := holds
  refine ⟨lit, .inr ⟨mem, fun same => apart ?_⟩, lies, holds⟩
  have same : lit = (atom, !sign) := same
  subst same
  exact lies

namespace PartialInterpolant

theorem first (holds : ∀ ν ∈ A, ∃ lit ∈ clause, ν lit.1 = lit.2)
    (covers : ∀ lit ∈ clause, lit.1 ∉ right → lit.1 ∈ left) :
    PartialInterpolant A B left right clause { ν | SomeHolds clause right ν } where
  reach := by
    intro ν mem
    obtain ⟨lit, inClause, holds⟩ := holds ν mem
    by_cases lies : lit.1 ∈ right
    · exact .inl ⟨lit, inClause, lies, holds⟩
    · exact .inr ⟨lit, inClause, covers lit inClause lies, holds⟩
  refute := fun _ _ holds => holds

theorem second (holds : ∀ ν ∈ B, ∃ lit ∈ clause, ν lit.1 = lit.2)
    (covers : ∀ lit ∈ clause, lit.1 ∈ right) :
    PartialInterpolant A B left right clause Set.univ where
  reach := fun _ _ => .inl trivial
  refute := by
    intro ν mem _
    obtain ⟨lit, inClause, holds⟩ := holds ν mem
    exact ⟨lit, inClause, covers lit inClause, holds⟩

theorem resolve_left (one : PartialInterpolant A B left right clause form)
    (two : PartialInterpolant A B left right clause' form') (apart : atom ∉ right) :
    PartialInterpolant A B left right (binaryResolvent atom sign clause clause') (form ∪ form') where
  reach := by
    intro ν mem
    rcases one.reach ν mem with here | first
    · exact .inl (.inl here)
    rcases two.reach ν mem with here | second
    · exact .inl (.inr here)
    · exact .inr (someHolds_resolve first second)
  refute := by
    rintro ν mem (here | here)
    · exact someHolds_resolve_left apart (one.refute ν mem here)
    · exact someHolds_resolve_right apart (two.refute ν mem here)

theorem resolve_right (one : PartialInterpolant A B left right clause form)
    (two : PartialInterpolant A B left right clause' form') (apart : atom ∉ left) :
    PartialInterpolant A B left right (binaryResolvent atom sign clause clause') (form ∩ form') where
  reach := by
    intro ν mem
    rcases one.reach ν mem with here | first
    · rcases two.reach ν mem with here' | second
      · exact .inl ⟨here, here'⟩
      · exact .inr (someHolds_resolve_right apart second)
    · exact .inr (someHolds_resolve_left apart first)
  refute := fun ν mem both =>
    someHolds_resolve (one.refute ν mem both.1) (two.refute ν mem both.2)

theorem mono {left' right' : Set Atom} (one : PartialInterpolant A B left right clause form)
    (le : left ⊆ left') (le' : right ⊆ right') :
    PartialInterpolant A B left' right' clause form where
  reach := fun ν mem => (one.reach ν mem).imp_right fun ⟨lit, inClause, lies, holds⟩ =>
    ⟨lit, inClause, le lies, holds⟩
  refute := fun ν mem here =>
    have ⟨lit, inClause, lies, holds⟩ := one.refute ν mem here
    ⟨lit, inClause, le' lies, holds⟩

theorem of_empty (one : PartialInterpolant A B left right ∅ form) :
    A ⊆ form ∧ ∀ ν ∈ form, ν ∉ B := by
  refine ⟨fun ν mem => ?_, fun ν here mem => ?_⟩
  · exact (one.reach ν mem).resolve_right fun ⟨_, inClause, _⟩ => inClause
  · obtain ⟨_, inClause, _⟩ := one.refute ν mem here
    exact inClause

end PartialInterpolant

end Nixie
