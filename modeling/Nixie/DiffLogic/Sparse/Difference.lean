import Mathlib.Data.Real.Basic
import Nixie.DiffLogic.Sparse.State
import Nixie.Graph.Feasible

/-! Difference constraints between terms, and when finitely many of them have a solution. -/

namespace Nixie.DiffLogic.Sparse

open Nixie.Graph

/-- A difference constraint between two terms. -/
structure Difference where
  x : Nat
  y : Nat
  bound : ℚ
  constraintType : ConstraintType
  deriving DecidableEq, Repr

/-- A solution of a constraint; strict ones are read strictly. -/
def Difference.Holds {K : Type*} [Field K] [LinearOrder K] (value : Nat → K) (d : Difference) : Prop :=
  match d.constraintType with
  | .leqConst => value d.x - value d.y ≤ d.bound
  | .ltConst => value d.x - value d.y < d.bound

/-- Some integers, or some reals, satisfy all constraints. -/
def Satisfiable (isInteger : Bool) (live : List Difference) : Prop :=
  if isInteger then ∃ value : Nat → Int, ∀ d ∈ live, d.Holds fun t => (value t : ℚ)
  else ∃ value : Nat → ℝ, ∀ d ∈ live, d.Holds value

def Difference.effectiveBound (d : Difference) (isInteger : Bool) : ℚ :=
  match d.constraintType with
  | .leqConst => d.bound
  | .ltConst => if isInteger then d.bound - 1 else d.bound

/-- The weighted edges of constraints between terms. -/
def TermEdge (isInteger : Bool) (live : List Difference) (a b : Nat) (w : ℚ) : Prop :=
  ∃ d ∈ live, d.y = a ∧ d.x = b ∧ d.effectiveBound isInteger = w

/-- The edges of constraints, weighted with the constant and the number of strict constraints. -/
def StrictEdge (live : List Difference) (a b : Nat) (w : ℚ × Nat) : Prop :=
  ∃ d ∈ live, d.y = a ∧ d.x = b ∧ w = (d.bound, if d.constraintType = .ltConst then 1 else 0)

/-- The constants along some cycle through a strict constraint add up to zero. -/
def TightStrictCycle (live : List Difference) : Prop :=
  ∃ a vertices strict, Walk (StrictEdge live) a vertices a (0, strict) ∧ 0 < strict

section

variable {live : List Difference}

theorem Difference.exists_integer {d : Difference} (whole : ∃ k : Int, d.bound = k) :
    ∃ z : Int, d.effectiveBound true = z ∧ ∀ value : Nat → Int,
      (d.Holds fun t => (value t : ℚ)) ↔ value d.x ≤ value d.y + z := by
  obtain ⟨k, constant⟩ := whole
  unfold Difference.Holds Difference.effectiveBound
  rw [constant]
  cases d.constraintType with
  | leqConst =>
    refine ⟨k, rfl, fun value => ?_⟩
    dsimp only
    rw [Rat.cast_intCast, ← Int.cast_sub, Int.cast_le]
    exact ⟨fun _ => by omega, fun _ => by omega⟩
  | ltConst =>
    -- Below an integer is at most the integer before it.
    refine ⟨k - 1, by simp, fun value => ?_⟩
    dsimp only
    rw [Rat.cast_intCast, ← Int.cast_sub, Int.cast_lt]
    exact ⟨fun _ => by omega, fun _ => by omega⟩

theorem satisfiable_integer (whole : ∀ d ∈ live, ∃ k : Int, d.bound = k) :
    Satisfiable true live ↔ NoNegativeCycle (TermEdge true live) := by
  unfold Satisfiable
  rw [if_pos rfl]
  constructor
  · rintro ⟨value, holds⟩
    -- A solution is a potential.
    have potential : Potential (TermEdge true live) fun t => (value t : ℚ) := by
      rintro a b w ⟨d, mem, rfl, rfl, rfl⟩
      obtain ⟨z, weight, reads⟩ := Difference.exists_integer (whole d mem)
      have bound := (reads value).mp (holds d mem)
      rw [weight]
      show (value d.x : ℚ) ≤ value d.y + z
      exact_mod_cast bound
    exact potential.noNegativeCycle
  · intro sound
    -- The same edges with integer weights have an integer potential.
    have integers : NoNegativeCycle (listEdge (live.map fun d =>
        (d.y, d.x, (d.effectiveBound true).num))) := by
      intro a vertices w cycle
      have rational := @Walk.map _ _ _ _ _ _ (TermEdge true live) (Int.castAddHom ℚ) (fun a b w mem => by
        obtain ⟨d, lies, same⟩ := List.mem_map.mp mem
        cases same
        obtain ⟨z, weight, _⟩ := Difference.exists_integer (whole d lies)
        refine ⟨d, lies, rfl, rfl, ?_⟩
        rw [weight, Rat.num_intCast]
        rfl) _ _ _ _ cycle
      have pos := sound _ _ _ rational
      exact Int.cast_nonneg_iff.mp pos
    obtain ⟨value, potential⟩ := exists_potential integers
    refine ⟨value, fun d mem => ?_⟩
    obtain ⟨z, weight, reads⟩ := Difference.exists_integer (whole d mem)
    have bound := potential d.y d.x (d.effectiveBound true).num (List.mem_map_of_mem mem)
    rw [weight, Rat.num_intCast] at bound
    exact (reads value).mpr bound

theorem StrictEdge.walk {value : Nat → ℝ} (holds : ∀ d ∈ live, d.Holds value) {a b : Nat}
    {vertices : List Nat} {w : ℚ × Nat} (walk : Walk (StrictEdge live) a vertices b w) :
    value b ≤ value a + w.1 ∧ (0 < w.2 → value b < value a + w.1) := by
  -- By induction on the walk: one strict bound makes the sum strict.
  induction walk with
  | nil =>
    rw [Prod.fst_zero, Prod.snd_zero, Rat.cast_zero, add_zero]
    exact ⟨le_rfl, fun strict => absurd strict (lt_irrefl 0)⟩
  | @cons a b c w r vertices first _ ih =>
    obtain ⟨d, mem, rfl, rfl, rfl⟩ := first
    obtain ⟨bound, strict⟩ := ih
    have own := holds d mem
    unfold Difference.Holds at own
    rw [Prod.fst_add, Prod.snd_add, Rat.cast_add]
    cases kind : d.constraintType with
    | leqConst =>
      rw [kind] at own
      dsimp only at own
      refine ⟨by linarith, fun pos => ?_⟩
      have later : 0 < r.2 := by simpa using pos
      have rest := strict later
      linarith
    | ltConst =>
      rw [kind] at own
      dsimp only at own
      exact ⟨by linarith, fun _ => by linarith⟩

/-- The edges of real constraints with a second weight for the strict ones. -/
def lexEdges (live : List Difference) : List (Nat × Nat × (ℚ ×ₗ Int)) :=
  live.map fun d => (d.y, d.x, toLex (d.bound, if d.constraintType = .ltConst then -1 else 0))

theorem lexEdges_walk {a b : Nat} {vertices : List Nat} {w : ℚ ×ₗ Int}
    (walk : Walk (listEdge (lexEdges live)) a vertices b w) :
    ∃ strict : Nat, Walk (StrictEdge live) a vertices b ((ofLex w).1, strict) ∧
      (ofLex w).2 = -strict := by
  induction walk with
  | nil => exact ⟨0, .nil _, rfl⟩
  | @cons a b c w r vertices first _ ih =>
    obtain ⟨strict, rest, count⟩ := ih
    obtain ⟨d, mem, same⟩ := List.mem_map.mp first
    cases same
    have step : StrictEdge live d.y d.x (d.bound, if d.constraintType = .ltConst then 1 else 0) :=
      ⟨d, mem, rfl, rfl, rfl⟩
    refine ⟨(if d.constraintType = .ltConst then 1 else 0) + strict, .cons step rest, ?_⟩
    rw [ofLex_add, Prod.snd_add, count]
    by_cases kind : d.constraintType = .ltConst
    · rw [if_pos kind, if_pos kind, Nat.cast_add, neg_add]
      rfl
    · rw [if_neg kind, if_neg kind, Nat.cast_add, neg_add]
      rfl

theorem Difference.effectiveBound_real (d : Difference) : d.effectiveBound false = d.bound := by
  unfold Difference.effectiveBound
  split
  · rfl
  · exact if_neg Bool.false_ne_true

theorem TermEdge.count {a b : Nat} {vertices : List Nat} {w : ℚ}
    (walk : Walk (TermEdge false live) a vertices b w) :
    ∃ strict, Walk (StrictEdge live) a vertices b (w, strict) := by
  induction walk with
  | nil => exact ⟨0, .nil _⟩
  | cons first _ ih =>
    obtain ⟨strict, rest⟩ := ih
    obtain ⟨d, mem, rfl, rfl, rfl⟩ := first
    rw [d.effectiveBound_real]
    exact ⟨_, .cons ⟨d, mem, rfl, rfl, rfl⟩ rest⟩

theorem satisfiable_sound (solution : Satisfiable false live) :
    NoNegativeCycle (TermEdge false live) := by
  unfold Satisfiable at solution
  rw [if_neg Bool.false_ne_true] at solution
  obtain ⟨value, holds⟩ := solution
  intro a vertices w cycle
  obtain ⟨strict, counted⟩ := TermEdge.count cycle
  have bound := (StrictEdge.walk holds counted).1
  have pos : (0 : ℝ) ≤ (w : ℝ) := by linarith
  exact_mod_cast pos

/--
Real constraints have a solution exactly when there is no negative cycle, provided that the constants
along a cycle through a strict constraint do not add up to zero.
-/
theorem satisfiable_real (loose : ¬ TightStrictCycle live) :
    Satisfiable false live ↔ NoNegativeCycle (TermEdge false live) := by
  refine ⟨satisfiable_sound, fun sound => ?_⟩
  unfold Satisfiable
  rw [if_neg Bool.false_ne_true]
  -- With the second weights there is no negative cycle either.
  have lex : NoNegativeCycle (listEdge (lexEdges live)) := by
    intro a vertices w cycle
    obtain ⟨strict, counted, count⟩ := lexEdges_walk cycle
    have plain : Walk (TermEdge false live) a vertices a
        (AddMonoidHom.fst ℚ Nat ((ofLex w).1, strict)) :=
      counted.map (AddMonoidHom.fst ℚ Nat) fun a b w ⟨d, mem, source, target, same⟩ =>
        ⟨d, mem, source, target, same ▸ d.effectiveBound_real⟩
    have weight : 0 ≤ (ofLex w).1 := sound _ _ _ plain
    refine Prod.Lex.le_iff.mpr ?_
    rcases weight.lt_or_eq with pos | zero
    · exact .inl pos
    · refine .inr ⟨zero, ?_⟩
      rw [← zero] at counted
      have few : strict = 0 := by
        by_contra some_
        exact loose ⟨a, vertices, strict, counted, Nat.pos_of_ne_zero some_⟩
      rw [count, few]
      rfl
  obtain ⟨lexValue, potential⟩ := exists_potential lex
  obtain ⟨value, strict⟩ := potential.exists_strict (by
    intro a b w mem
    obtain ⟨d, _, same⟩ := List.mem_map.mp mem
    cases same
    rw [ofLex_toLex]
    dsimp only
    split
    · decide
    · exact le_rfl)
  refine ⟨fun t => (value t : ℝ), fun d mem => ?_⟩
  obtain ⟨bound, below⟩ := strict d.y d.x _ (List.mem_map_of_mem mem)
  rw [ofLex_toLex] at bound below
  unfold Difference.Holds
  cases kind : d.constraintType with
  | leqConst =>
    dsimp only
    have real : (value d.x : ℝ) ≤ value d.y + d.bound := by exact_mod_cast bound
    linarith
  | ltConst =>
    dsimp only
    have strictly : value d.x < value d.y + d.bound := below (by simp [kind])
    have real : (value d.x : ℝ) < value d.y + d.bound := by exact_mod_cast strictly
    linarith

end

end Nixie.DiffLogic.Sparse
