import Mathlib.Algebra.Order.Field.Basic
import Mathlib.Data.Sign.Basic
import Mathlib.Tactic.Linarith

/-! Ends of intervals, which are rational numbers or infinite. -/

namespace Nixie.Math

inductive Bound where
  | negInf
  | finite (value : ℚ)
  | posInf
  deriving DecidableEq

namespace Bound

def negate : Bound → Bound
  | negInf => posInf
  | posInf => negInf
  | finite r => finite (-r)

def add : Bound → Bound → Option Bound
  | negInf, posInf | posInf, negInf => none
  | negInf, _ | _, negInf => some negInf
  | posInf, _ | _, posInf => some posInf
  | finite a, finite b => some (finite (a + b))

/-- An infinite end times a number: zero times infinity is zero. -/
def scale (a : ℚ) (inf : Bound) : Bound :=
  if a = 0 then finite 0 else if 0 < a then inf else inf.negate

def mul : Bound → Bound → Bound
  | finite a, finite b => finite (a * b)
  | finite a, inf | inf, finite a => scale a inf
  | negInf, negInf | posInf, posInf => posInf
  | negInf, posInf | posInf, negInf => negInf

def cmpBound : Bound → Bound → Ordering
  | negInf, negInf => .eq
  | negInf, _ => .lt
  | _, negInf => .gt
  | posInf, posInf => .eq
  | posInf, _ => .gt
  | _, posInf => .lt
  | finite a, finite b => compare a b

def extended : Bound → WithBot (WithTop ℚ)
  | negInf => ⊥
  | finite r => ((r : WithTop ℚ) : WithBot (WithTop ℚ))
  | posInf => ((⊤ : WithTop ℚ) : WithBot (WithTop ℚ))

theorem extended_injective : Function.Injective extended := by
  intro a b same
  cases a <;> cases b <;> simp_all [extended]

instance : LinearOrder Bound := LinearOrder.lift' extended extended_injective

variable {b : Bound}

theorem le_iff_extended {a : Bound} : a ≤ b ↔ a.extended ≤ b.extended := Iff.rfl

@[simp] theorem finite_le_finite {a b : ℚ} : finite a ≤ finite b ↔ a ≤ b := by
  rw [le_iff_extended, extended, extended, WithBot.coe_le_coe, WithTop.coe_le_coe]

@[simp] theorem finite_lt_finite {a b : ℚ} : finite a < finite b ↔ a < b :=
  lt_iff_lt_of_le_iff_le finite_le_finite

@[simp] theorem negInf_le (b : Bound) : negInf ≤ b := by
  rw [le_iff_extended]
  exact bot_le

@[simp] theorem le_posInf (b : Bound) : b ≤ posInf := by
  rw [le_iff_extended]
  cases b with
  | negInf => exact bot_le
  | finite r => exact WithBot.coe_le_coe.mpr le_top
  | posInf => exact le_rfl

@[simp] theorem negInf_lt_finite (r : ℚ) : negInf < finite r := lt_of_le_of_ne (negInf_le _) nofun

@[simp] theorem finite_lt_posInf (r : ℚ) : finite r < posInf := lt_of_le_of_ne (le_posInf _) nofun

@[simp] theorem negInf_lt_posInf : negInf < posInf := lt_of_le_of_ne (negInf_le _) nofun

@[simp] theorem not_finite_le_negInf (r : ℚ) : ¬finite r ≤ negInf := (negInf_lt_finite r).not_ge

@[simp] theorem not_posInf_le_finite (r : ℚ) : ¬posInf ≤ finite r := (finite_lt_posInf r).not_ge

@[simp] theorem not_posInf_le_negInf : ¬posInf ≤ negInf := negInf_lt_posInf.not_ge

theorem cmpBound_eq_compare (a b : Bound) : a.cmpBound b = compare a b := by
  symm
  cases a with
  | negInf =>
    cases b with
    | negInf => exact compare_eq_iff_eq.mpr rfl
    | finite s => exact compare_lt_iff_lt.mpr (negInf_lt_finite s)
    | posInf => exact compare_lt_iff_lt.mpr negInf_lt_posInf
  | finite r =>
    cases b with
    | negInf => exact compare_gt_iff_gt.mpr (negInf_lt_finite r)
    | finite s =>
      rcases lt_trichotomy r s with less | rfl | more
      · exact (compare_lt_iff_lt.mpr (finite_lt_finite.mpr less)).trans
          (compare_lt_iff_lt.mpr less).symm
      · exact (compare_eq_iff_eq.mpr rfl).trans (compare_eq_iff_eq.mpr rfl).symm
      · exact (compare_gt_iff_gt.mpr (finite_lt_finite.mpr more)).trans
          (compare_gt_iff_gt.mpr more).symm
    | posInf => exact compare_lt_iff_lt.mpr (finite_lt_posInf r)
  | posInf =>
    cases b with
    | negInf => exact compare_gt_iff_gt.mpr negInf_lt_posInf
    | finite s => exact compare_gt_iff_gt.mpr (finite_lt_posInf s)
    | posInf => exact compare_eq_iff_eq.mpr rfl

theorem exists_finite_between {a : Bound} (less : a < b) : ∃ r, a < finite r ∧ finite r < b := by
  cases a with
  | negInf =>
    cases b with
    | negInf => exact absurd less (lt_irrefl _)
    | finite s => exact ⟨s - 1, negInf_lt_finite _, finite_lt_finite.mpr (sub_one_lt s)⟩
    | posInf => exact ⟨0, negInf_lt_finite _, finite_lt_posInf _⟩
  | finite r =>
    cases b with
    | negInf => exact absurd less (negInf_le _).not_gt
    | finite s =>
      obtain ⟨q, left, right⟩ := exists_between (finite_lt_finite.mp less)
      exact ⟨q, finite_lt_finite.mpr left, finite_lt_finite.mpr right⟩
    | posInf => exact ⟨r + 1, finite_lt_finite.mpr (lt_add_one r), finite_lt_posInf _⟩
  | posInf => exact absurd less (le_posInf _).not_gt

instance : Zero Bound := ⟨finite 0⟩

theorem zero_def : (0 : Bound) = finite 0 := rfl

@[simp] theorem scale_zero (inf : Bound) : scale 0 inf = 0 := if_pos rfl

theorem scale_of_pos {a : ℚ} (pos : 0 < a) (inf : Bound) : scale a inf = inf := by
  rw [scale, if_neg pos.ne', if_pos pos]

theorem scale_of_neg {a : ℚ} (neg : a < 0) (inf : Bound) : scale a inf = inf.negate := by
  rw [scale, if_neg neg.ne, if_neg neg.not_gt]

theorem mul_comm (a b : Bound) : a.mul b = b.mul a := by
  cases a <;> cases b <;> simp only [mul, Rat.mul_comm]

theorem mul_negate (a b : Bound) : a.mul b.negate = (a.mul b).negate := by
  cases a with
  | finite r =>
    rcases lt_trichotomy r 0 with neg | rfl | pos
    · cases b <;> simp [mul, negate, scale_of_neg neg]
    · cases b <;> simp [mul, negate, zero_def]
    · cases b <;> simp [mul, negate, scale_of_pos pos]
  | negInf | posInf =>
    cases b with
    | finite r =>
      rcases lt_trichotomy r 0 with neg | rfl | pos
      · simp [mul, negate, scale_of_neg neg, scale_of_pos (neg_pos.mpr neg)]
      · simp [mul, negate, zero_def]
      · simp [mul, negate, scale_of_pos pos, scale_of_neg (neg_lt_zero.mpr pos)]
    | negInf | posInf => rfl

theorem negate_le_negate {a : Bound} : a.negate ≤ b.negate ↔ b ≤ a := by
  cases a <;> cases b <;> simp [negate]

@[simp] theorem negate_negate (a : Bound) : a.negate.negate = a := by
  cases a <;> simp [negate]

theorem zero_mul (b : Bound) : Bound.mul 0 b = 0 := by
  cases b <;> simp [mul, ← zero_def]

theorem posInf_mul_of_pos (pos : 0 < b) : posInf.mul b = posInf := by
  cases b with
  | negInf => exact absurd pos (negInf_le _).not_gt
  | finite r => exact scale_of_pos (finite_lt_finite.mp pos) posInf
  | posInf => rfl

theorem posInf_mul_of_neg (neg : b < 0) : posInf.mul b = negInf := by
  cases b with
  | negInf => rfl
  | finite r => exact scale_of_neg (finite_lt_finite.mp neg) posInf
  | posInf => exact absurd neg (le_posInf _).not_gt

theorem mul_monotone {a : Bound} (nonneg : 0 ≤ a) : Monotone a.mul := by
  intro b c le
  cases a with
  | negInf => exact absurd nonneg (not_finite_le_negInf 0)
  | finite r =>
    rcases (finite_le_finite.mp nonneg).eq_or_lt with rfl | pos
    · have const (d : Bound) : (finite 0).mul d = 0 := zero_mul d
      rw [const, const]
    · cases b <;> cases c <;> simp_all [mul, scale_of_pos pos]
  | posInf =>
    rcases lt_trichotomy b 0 with neg | rfl | pos
    · rw [posInf_mul_of_neg neg]
      exact negInf_le _
    · rw [mul_comm, zero_mul]
      rcases le.eq_or_lt with rfl | pos
      · rw [mul_comm, zero_mul]
      · rw [posInf_mul_of_pos pos]
        exact le_posInf _
    · rw [posInf_mul_of_pos pos, posInf_mul_of_pos (pos.trans_le le)]

theorem negate_injective : Function.Injective negate := Function.LeftInverse.injective negate_negate

theorem negate_eq_posInf {a : Bound} : a.negate = posInf ↔ a = negInf :=
  negate_injective.eq_iff' rfl

theorem negate_eq_negInf {a : Bound} : a.negate = negInf ↔ a = posInf :=
  negate_injective.eq_iff' rfl

theorem mul_antitone {a : Bound} (nonpos : a ≤ 0) : Antitone a.mul := by
  intro b c le
  have nonneg : 0 ≤ a.negate := negate_le_negate.mpr nonpos
  have turned := mul_monotone nonneg le
  rwa [mul_comm, mul_negate, mul_comm a.negate, mul_negate, negate_le_negate, mul_comm c,
    mul_comm b] at turned

theorem mul_eq_zero {a : Bound} : a.mul b = 0 ↔ a = 0 ∨ b = 0 := by
  have scaled {r : ℚ} (other : r ≠ 0) : scale r posInf ≠ finite 0 ∧ scale r negInf ≠ finite 0 := by
    rcases lt_or_gt_of_ne other with neg | pos
    · rw [scale_of_neg neg, scale_of_neg neg]
      exact ⟨nofun, nofun⟩
    · rw [scale_of_pos pos, scale_of_pos pos]
      exact ⟨nofun, nofun⟩
  constructor
  · intro zero
    by_contra none_
    obtain ⟨left, right⟩ := not_or.mp none_
    cases a with
    | finite r =>
      have left : r ≠ 0 := fun eq => left (congrArg finite eq)
      cases b with
      | finite s =>
        have right : s ≠ 0 := fun eq => right (congrArg finite eq)
        exact mul_ne_zero left right (finite.inj zero)
      | negInf => exact (scaled left).2 zero
      | posInf => exact (scaled left).1 zero
    | negInf =>
      cases b with
      | finite s => exact (scaled fun eq => right (congrArg finite eq)).2 zero
      | negInf | posInf => cases zero
    | posInf =>
      cases b with
      | finite s => exact (scaled fun eq => right (congrArg finite eq)).1 zero
      | negInf | posInf => cases zero
  · rintro (rfl | rfl)
    · exact zero_mul b
    · rw [mul_comm, zero_mul]

theorem mul_zero (a : Bound) : a.mul 0 = 0 := mul_eq_zero.mpr (.inr rfl)

theorem mul_nonneg {a b : Bound} (left : 0 ≤ a) (right : 0 ≤ b) : 0 ≤ a.mul b :=
  (mul_zero a).symm.trans_le (mul_monotone left right)

theorem mul_nonpos {a b : Bound} (left : 0 ≤ a) (right : b ≤ 0) : a.mul b ≤ 0 :=
  (mul_monotone left right).trans_eq (mul_zero a)

theorem mul_nonneg_of_nonpos {a b : Bound} (left : a ≤ 0) (right : b ≤ 0) : 0 ≤ a.mul b :=
  (mul_zero a).symm.trans_le (mul_antitone left right)

theorem mul_finite_cancel {r s : ℚ} (other : r ≠ 0)
    (same : (finite r).mul b = (finite r).mul (finite s)) : b = finite s := by
  cases b with
  | finite t => exact congrArg finite (mul_left_cancel₀ other (finite.inj same))
  | negInf | posInf =>
    -- The product would be infinite.
    have scaled : scale r _ = finite (r * s) := same
    rcases lt_or_gt_of_ne other with neg | pos
    · rw [scale_of_neg neg] at scaled
      cases scaled
    · rw [scale_of_pos pos] at scaled
      cases scaled

end Bound

end Nixie.Math

/-! Intervals of rational numbers, and how bounds are propagated through arithmetic. -/

namespace Nixie.Math

/-- An interval, whose ends may be part of it or not. -/
structure Interval where
  lo : Bound
  hi : Bound
  loOpen : Bool
  hiOpen : Bool
  deriving DecidableEq

namespace Interval

def empty : Interval := ⟨.posInf, .negInf, true, true⟩

def point (a : ℚ) : Interval := ⟨.finite a, .finite a, false, false⟩

def closed (a b : ℚ) : Interval := ⟨.finite a, .finite b, false, false⟩

def open_ (a b : ℚ) : Interval := ⟨.finite a, .finite b, true, true⟩

def atLeast (a : ℚ) : Interval := ⟨.finite a, .posInf, false, true⟩

def isEmpty (i : Interval) : Bool :=
  match i.lo.cmpBound i.hi with
  | .gt => true
  | .eq => i.loOpen || i.hiOpen
  | .lt => false

def contains (i : Interval) (x : ℚ) : Bool :=
  (match i.lo.cmpBound (.finite x) with
    | .lt => true
    | .eq => !i.loOpen
    | .gt => false) &&
  match (Bound.finite x).cmpBound i.hi with
    | .lt => true
    | .eq => !i.hiOpen
    | .gt => false

def isPositive (i : Interval) : Bool :=
  match i.lo with
  | .negInf => false
  | .posInf => i.isEmpty
  | .finite r => if 0 < r then true else if r = 0 then i.loOpen else false

def negate (i : Interval) : Interval := ⟨i.hi.negate, i.lo.negate, i.hiOpen, i.loOpen⟩

def add (i other : Interval) : Option Interval :=
  if i.isEmpty || other.isEmpty then some empty
  else do
    let lo ← i.lo.add other.lo
    let hi ← i.hi.add other.hi
    some ⟨lo, hi, i.loOpen || other.loOpen, i.hiOpen || other.hiOpen⟩

def sub (i other : Interval) : Option Interval := i.add other.negate

/-- The products of all ends, and whether they are not attained. -/
def corners (i other : Interval) : List (Bound × Bool) :=
  [(i.lo.mul other.lo, i.loOpen || other.loOpen), (i.lo.mul other.hi, i.loOpen || other.hiOpen),
    (i.hi.mul other.lo, i.hiOpen || other.loOpen), (i.hi.mul other.hi, i.hiOpen || other.hiOpen)]

/--
The first of some sorted corners: it is not attained if that holds for all corners of its value.
-/
def extreme (bounds : List (Bound × Bool)) : Bound × Bool :=
  match bounds with
  -- There are always four corners.
  | [] => (.finite 0, true)
  | (value, _) :: _ =>
    (value, (bounds.takeWhile fun c => c.1.cmpBound value == .eq).all Prod.snd)

def mul (i other : Interval) : Interval :=
  if i.isEmpty || other.isEmpty then empty
  else
    let bounds := (i.corners other).mergeSort fun a b => a.1.cmpBound b.1 != .gt
    let (lo, loOpen) := extreme bounds
    let (hi, hiOpen) := extreme bounds.reverse
    ⟨lo, hi, loOpen, hiOpen⟩

def recip : Bound → Option Bound
  | .negInf | .posInf => some (.finite 0)
  | .finite r => if r = 0 then none else some (.finite (1 / r))

/-- The quotients of two numbers, unless the divisor may be zero. -/
def div (i other : Interval) : Option Interval :=
  if i.isEmpty || other.isEmpty then some empty
  else if other.contains 0 then none
  else do
    let recipLo ← recip other.hi
    let recipHi ← recip other.lo
    some (i.mul ⟨recipLo, recipHi, other.hiOpen, other.loOpen⟩)

def laterLo (i other : Interval) : Bound × Bool :=
  match i.lo.cmpBound other.lo with
  | .lt => (other.lo, other.loOpen)
  | .gt => (i.lo, i.loOpen)
  | .eq => (i.lo, i.loOpen || other.loOpen)

def earlierHi (i other : Interval) : Bound × Bool :=
  match i.hi.cmpBound other.hi with
  | .lt => (i.hi, i.hiOpen)
  | .gt => (other.hi, other.hiOpen)
  | .eq => (i.hi, i.hiOpen || other.hiOpen)

def intersect (i other : Interval) : Interval :=
  if i.isEmpty || other.isEmpty then empty
  else
    let (lo, loOpen) := i.laterLo other
    let (hi, hiOpen) := i.earlierHi other
    ⟨lo, hi, loOpen, hiOpen⟩

def powLoop (result base : ℚ) (exp : Nat) : ℚ :=
  if exp = 0 then result
  else powLoop (if exp % 2 = 1 then result * base else result) (base * base) (exp / 2)
termination_by exp
decreasing_by omega

def powRational (r : ℚ) (n : Nat) : ℚ := if n = 0 then 1 else powLoop 1 r n

def powBound (n : Nat) : Bound → Bound
  | .negInf => .negInf
  | .posInf => .posInf
  | .finite r => .finite (powRational r n)

/-- Powers that grow with the absolute value, from the end that is nearer to zero. -/
def powFrom (n : Nat) (near far : Bound) (nearOpen farOpen : Bool) : Interval :=
  match near with
  | .finite r =>
    match far with
    | .finite s => ⟨.finite (powRational r n), .finite (powRational s n), nearOpen, farOpen⟩
    | _ => atLeast (powRational r n)
  | _ => atLeast 0

def pow (i : Interval) (n : Nat) : Option Interval :=
  if i.isEmpty then some empty
  else if n = 0 then some (point 1)
  else if n = 1 then some i
  else if n % 2 = 0 then
    if i.contains 0 then
      match i.lo with
      | .negInf => some (atLeast 0)
      -- Zero is neither above nor below infinity, and the code says that this is unreachable.
      | .posInf => none
      | .finite a =>
        match i.hi with
        | .posInf => some (atLeast 0)
        | .negInf => none
        | .finite b => some ⟨.finite 0, .finite (powRational (max |a| |b|) n), false,
            i.loOpen && i.hiOpen⟩
    else if i.isPositive then some (powFrom n i.lo i.hi i.loOpen i.hiOpen)
    else some (powFrom n i.hi i.lo i.hiOpen i.loOpen)
  else some ⟨powBound n i.lo, powBound n i.hi, i.loOpen, i.hiOpen⟩

def propagateAdd (x result : Interval) : Option Interval := result.sub x

def propagateSubLeft (x result : Interval) : Option Interval := x.sub result

def propagateSubRight (y result : Interval) : Option Interval := result.add y

def propagateMul (x result : Interval) : Option Interval := result.div x

def propagateDivLeft (x result : Interval) : Option Interval := x.div result

def propagateDivRight (y result : Interval) : Interval := result.mul y

end Interval

end Nixie.Math
