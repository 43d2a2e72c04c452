import Mathlib.Algebra.Order.Ring.Int
import Mathlib.Tactic.Ring

/-! Linear forms with integer coefficients: their values at integers, and at zeros and ones. -/

namespace Nixie.Math.IntegerForm

/-- The value of a linear form where the variables are numbered from zero. -/
def value : List Int → (Nat → Int) → Int
  | [], _ => 0
  | c :: cs, x => c * x 0 + value cs fun i => x (i + 1)

def content : List Int → Nat
  | [] => 0
  | c :: cs => c.gcd (content cs)

/-- All variables are zero or one. -/
def ZeroOne (x : Nat → Int) : Prop := ∀ i, x i = 0 ∨ x i = 1

def positiveSum (cs : List Int) : Int := (cs.filter (0 < ·)).sum

def negativeSum (cs : List Int) : Int := (cs.filter (· < 0)).sum

variable {cs : List Int} {x : Nat → Int}

theorem content_dvd_value (cs : List Int) (x : Nat → Int) : (content cs : Int) ∣ value cs x := by
  induction cs generalizing x with
  | nil => exact dvd_refl 0
  | cons c cs ih =>
    -- The content divides the first coefficient and the content of the others.
    have first : (content (c :: cs) : Int) ∣ c := Int.gcd_dvd_left c (content cs)
    have others : (content (c :: cs) : Int) ∣ content cs := Int.gcd_dvd_right c (content cs)
    exact Int.dvd_add (dvd_mul_of_dvd_left first _) (others.trans (ih _))

theorem exists_value_eq (cs : List Int) (k : Int) : ∃ x, value cs x = content cs * k := by
  induction cs generalizing k with
  | nil => exact ⟨fun _ => 0, (zero_mul k).symm⟩
  | cons c cs ih =>
    -- Bézout's identity gives the share of the first variable.
    obtain ⟨x, same⟩ := ih (c.gcdB (content cs) * k)
    refine ⟨fun i => i.casesOn (c.gcdA (content cs) * k) x, ?_⟩
    have identity := Int.gcd_eq_gcd_ab c (content cs)
    have split : value (c :: cs) (fun i => i.casesOn (c.gcdA (content cs) * k) x) =
        c * (c.gcdA (content cs) * k) + value cs x := rfl
    rw [split, same, content, identity]
    ring

theorem content_dvd {c : Int} (mem : c ∈ cs) : (content cs : Int) ∣ c := by
  induction cs with
  | nil => cases mem
  | cons d cs ih =>
    rcases List.mem_cons.mp mem with rfl | later
    · exact Int.gcd_dvd_left c (content cs)
    · exact (Int.gcd_dvd_right d (content cs)).trans (ih later)

theorem value_map_mul (g : Int) (cs : List Int) (x : Nat → Int) :
    value (cs.map (g * ·)) x = g * value cs x := by
  induction cs generalizing x with
  | nil => exact (mul_zero g).symm
  | cons c cs ih =>
    rw [List.map_cons, value, value, ih]
    ring

@[simp] theorem positiveSum_cons (c : Int) (cs : List Int) :
    positiveSum (c :: cs) = max c 0 + positiveSum cs := by
  unfold positiveSum
  by_cases pos : 0 < c
  · rw [List.filter_cons_of_pos (by simpa using pos), List.sum_cons, max_eq_left pos.le]
  · rw [List.filter_cons_of_neg (by simpa using pos), max_eq_right (not_lt.mp pos), zero_add]

@[simp] theorem negativeSum_cons (c : Int) (cs : List Int) :
    negativeSum (c :: cs) = min c 0 + negativeSum cs := by
  unfold negativeSum
  by_cases negative : c < 0
  · rw [List.filter_cons_of_pos (by simpa using negative), List.sum_cons, min_eq_left negative.le]
  · rw [List.filter_cons_of_neg (by simpa using negative), min_eq_right (not_lt.mp negative),
      zero_add]

theorem value_bounds (zeroOne : ZeroOne x) :
    negativeSum cs ≤ value cs x ∧ value cs x ≤ positiveSum cs := by
  induction cs generalizing x with
  | nil => exact ⟨le_refl 0, le_refl 0⟩
  | cons c cs ih =>
    have others := ih (x := fun i => x (i + 1)) fun i => zeroOne (i + 1)
    rw [negativeSum_cons, positiveSum_cons, value]
    rcases zeroOne 0 with first | first <;> rw [first] <;> omega

theorem exists_least (cs : List Int) : ∃ x, ZeroOne x ∧ value cs x = negativeSum cs := by
  induction cs with
  | nil => exact ⟨fun _ => 0, fun _ => Or.inl rfl, rfl⟩
  | cons c cs ih =>
    obtain ⟨x, zeroOne, same⟩ := ih
    refine ⟨fun i => i.casesOn (if c < 0 then 1 else 0) x, fun i => ?_, ?_⟩
    · cases i with
      | zero => exact (em (c < 0)).elim (fun h => Or.inr (if_pos h)) fun h => Or.inl (if_neg h)
      | succ i => exact zeroOne i
    · have split : value (c :: cs) (fun i => i.casesOn (if c < 0 then 1 else 0) x) =
          c * (if c < 0 then 1 else 0) + value cs x := rfl
      rw [split, same, negativeSum_cons]
      split <;> omega

theorem exists_value_le_iff {b : Int} : (∃ x, ZeroOne x ∧ value cs x ≤ b) ↔ negativeSum cs ≤ b := by
  constructor
  · rintro ⟨x, zeroOne, below⟩
    exact (value_bounds zeroOne).1.trans below
  · intro below
    obtain ⟨x, zeroOne, same⟩ := exists_least cs
    exact ⟨x, zeroOne, same.trans_le below⟩

end Nixie.Math.IntegerForm
