import Nixie.Opt.Cardinality

/-! Copies of a soft clause stand for its weight. -/

namespace Nixie.Opt

open List

/-- The weight is not below zero. -/
def Weight.NonNeg (w : Weight) : Prop := ∀ x ∈ w.value, 0 ≤ x

namespace MaxSatSolver

/-- Total weight of the violated soft clauses of finite weight. -/
def penalty (violates : Clause → Bool) (softs : List SoftClause) : ℚ :=
  (softs.map fun c => if violates c.lits then c.weight.value.getD 0 else 0).sum

@[simp] theorem penalty_nil (violates : Clause → Bool) : penalty violates [] = 0 := rfl

@[simp] theorem penalty_cons (violates : Clause → Bool) (c : SoftClause)
    (softs : List SoftClause) : penalty violates (c :: softs) =
      (if violates c.lits then c.weight.value.getD 0 else 0) + penalty violates softs := by
  rw [penalty, map_cons, sum_cons, penalty]

theorem bigintGcd_eq {a b : Int} (ha : 0 ≤ a) (hb : 0 ≤ b) : bigintGcd a b = Int.gcd a b := by
  induction a, b using bigintGcd.induct with
  | case1 a =>
    -- Nothing is left to divide by.
    rw [bigintGcd, if_pos rfl, Int.gcd_zero_right, Int.natAbs_of_nonneg ha]
  | case2 a b nonzero ih =>
    -- A remainder has the same common divisors.
    rw [bigintGcd, if_neg nonzero, ih hb (Int.tmod_nonneg b ha), Int.tmod_eq_emod_of_nonneg ha,
      Int.gcd_comm, Int.gcd_emod]

theorem bigintLcm_spec {a b : Int} (ha : 0 < a) (hb : 0 < b) :
    0 < bigintLcm a b ∧ a ∣ bigintLcm a b ∧ b ∣ bigintLcm a b := by
  rw [bigintLcm, if_neg (by omega), bigintGcd_eq ha.le hb.le]
  have left : (Int.gcd a b : Int) ∣ a := Int.gcd_dvd_left ..
  have right : (Int.gcd a b : Int) ∣ b := Int.gcd_dvd_right ..
  have positive : 0 < (Int.gcd a b : Int) := Int.natCast_pos.mpr (Int.gcd_pos_of_ne_zero_left b ha.ne')
  obtain ⟨p, hp⟩ := left
  obtain ⟨q, hq⟩ := right
  -- Dividing by the common divisor leaves a factor of the first number.
  have quotient : a.tdiv (Int.gcd a b) = p := Int.tdiv_eq_of_eq_mul_right positive.ne' hp
  have positiveP : 0 < p := by
    rw [hp] at ha
    exact pos_of_mul_pos_right ha positive.le
  rw [quotient]
  refine ⟨mul_pos positiveP hb, ⟨q, ?_⟩, ⟨p, mul_comm _ _⟩⟩
  calc p * b = p * (Int.gcd a b * q) := by rw [← hq]
    _ = Int.gcd a b * p * q := by ring
    _ = a * q := by rw [← hp]

section

variable {softs : List SoftClause}

def scaleStep (scale : Int) (c : SoftClause) : Int :=
  match c.weight with
  | .rational r => bigintLcm scale r.den
  | _ => scale

theorem weightScale_spec (softs : List SoftClause) : 0 < weightScale softs ∧
    ∀ c ∈ softs, ∀ r, c.weight = .rational r → (r.den : Int) ∣ weightScale softs := by
  -- Going on from a scale yields a multiple of it.
  suffices going : ∀ (softs : List SoftClause) (scale : Int), 0 < scale →
      ∀ last, softs.foldl scaleStep scale = last → 0 < last ∧ scale ∣ last ∧
        ∀ c ∈ softs, ∀ r, c.weight = .rational r → (r.den : Int) ∣ last by
    obtain ⟨positive, -, divides⟩ := going softs 1 one_pos _ rfl
    exact ⟨positive, divides⟩
  intro softs
  induction softs with
  | nil =>
    rintro scale positive last rfl
    exact ⟨positive, dvd_refl _, fun c mem => absurd mem not_mem_nil⟩
  | cons first rest ih =>
    intro scale positive last result
    rw [foldl_cons, scaleStep] at result
    cases weight : first.weight with
    | rational r =>
      simp only [weight] at result
      have denominator : 0 < (r.den : Int) := Int.natCast_pos.mpr r.den_pos
      obtain ⟨positiveLcm, before, now⟩ := bigintLcm_spec positive denominator
      obtain ⟨positiveLast, after, divides⟩ := ih _ positiveLcm last result
      refine ⟨positiveLast, before.trans after, fun c mem other found => ?_⟩
      rcases mem_cons.mp mem with rfl | mem
      · obtain rfl : r = other := by simpa [weight] using found
        exact now.trans after
      · exact divides c mem other found
    | int n | infinite =>
      -- Other weights have no denominator.
      simp only [weight] at result
      obtain ⟨positiveLast, after, divides⟩ := ih scale positive last result
      refine ⟨positiveLast, after, fun c mem other found => ?_⟩
      rcases mem_cons.mp mem with rfl | mem
      · rw [weight] at found
        cases found
      · exact divides c mem other found

def scaledPenalty (violates : Clause → Bool) (finite : List (Nat × Clause × Int)) : Int :=
  (finite.map fun item => if violates item.2.1 then item.2.2 else 0).sum

theorem scaledPenalty_cons (violates : Clause → Bool) (item : Nat × Clause × Int)
    (finite : List (Nat × Clause × Int)) : scaledPenalty violates (item :: finite) =
      (if violates item.2.1 then item.2.2 else 0) + scaledPenalty violates finite := by
  rw [scaledPenalty, map_cons, sum_cons, scaledPenalty]

theorem scaled_rational {r : ℚ} {scale : Int} (divides : (r.den : Int) ∣ scale) :
    ((r.num * scale.tdiv r.den : Int) : ℚ) = r * scale := by
  obtain ⟨factor, rfl⟩ := divides
  have nonzero : (r.den : Int) ≠ 0 := Int.natCast_ne_zero.mpr r.den_nz
  have nonzeroQ : (r.den : ℚ) ≠ 0 := Nat.cast_ne_zero.mpr r.den_nz
  rw [Int.mul_tdiv_cancel_left _ nonzero]
  push_cast
  -- A rational is its numerator over its denominator.
  calc (r.num : ℚ) * factor = (r.num / r.den) * (r.den * factor) := by field_simp
    _ = r * (r.den * factor) := by rw [Rat.num_div_den]

theorem scaledClauses_spec {scale : Int} (positive : 0 < scale)
    (nonneg : ∀ c ∈ softs, c.weight.NonNeg)
    (divides : ∀ c ∈ softs, ∀ r, c.weight = .rational r → (r.den : Int) ∣ scale) :
    (∀ violates, (scaledPenalty violates (scaledClauses scale softs) : ℚ) =
      penalty violates softs * scale) ∧
    ∀ item ∈ scaledClauses scale softs, 0 ≤ item.2.2 := by
  induction softs with
  | nil => exact ⟨fun violates => by simp [scaledClauses, scaledPenalty], fun item mem => by
      simp [scaledClauses] at mem⟩
  | cons c softs ih =>
    obtain ⟨sum, signs⟩ := ih (fun other lies => nonneg other (mem_cons_of_mem _ lies))
      fun other lies => divides other (mem_cons_of_mem _ lies)
    -- A finite weight is scaled to a number that is its product with the scale.
    have finite : ∀ (w : Int) (x : ℚ), c.weight.value = some x → (w : ℚ) = x * scale →
        scaledClauses scale (c :: softs) = (c.id, c.lits, w) :: scaledClauses scale softs →
        (∀ violates, (scaledPenalty violates (scaledClauses scale (c :: softs)) : ℚ) =
          penalty violates (c :: softs) * scale) ∧
        ∀ item ∈ scaledClauses scale (c :: softs), 0 ≤ item.2.2 := by
      intro w x value product list
      have sign : 0 ≤ w := by
        have weight : 0 ≤ x := nonneg c mem_cons_self x value
        have scaled : (0 : ℚ) ≤ w := by
          rw [product]
          exact mul_nonneg weight (by exact_mod_cast positive.le)
        exact_mod_cast scaled
      rw [list]
      refine ⟨fun violates => ?_, fun item mem => ?_⟩
      · rw [scaledPenalty_cons, penalty_cons, value, Option.getD_some, add_mul, ← sum violates]
        split
        · rw [← product]
          push_cast
          rfl
        · push_cast
          ring
      · rcases mem_cons.mp mem with rfl | mem
        · exact sign
        · exact signs item mem
    cases weight : c.weight with
    | int n =>
      refine finite (n * scale) n (by rw [weight]; rfl) (by push_cast; rfl) ?_
      rw [scaledClauses, filterMap_cons, weight, scaledClauses]
    | rational r =>
      refine finite (r.num * scale.tdiv r.den) r (by rw [weight]; rfl)
        (scaled_rational (divides c mem_cons_self r weight)) ?_
      rw [scaledClauses, filterMap_cons, weight, scaledClauses]
    | infinite =>
      -- Such a clause costs nothing, and is not scaled.
      have list : scaledClauses scale (c :: softs) = scaledClauses scale softs := by
        rw [scaledClauses, filterMap_cons, weight, scaledClauses]
      rw [list]
      refine ⟨fun violates => ?_, signs⟩
      rw [penalty_cons, weight, sum violates]
      simp [Weight.value]

end

section

variable {finite : List (Nat × Clause × Int)}

theorem weightUnit_spec (nonneg : ∀ item ∈ finite, 0 ≤ item.2.2) :
    0 ≤ weightUnit finite ∧ ∀ item ∈ finite, weightUnit finite ∣ item.2.2 := by
  -- Going on from a unit yields a divisor of it.
  suffices going : ∀ (finite : List (Nat × Clause × Int)), (∀ item ∈ finite, 0 ≤ item.2.2) →
      ∀ unit : Int, 0 ≤ unit → ∀ last, finite.foldl (fun unit item =>
          if item.2.2 ≠ 0 then bigintGcd unit item.2.2 else unit) unit = last →
        0 ≤ last ∧ last ∣ unit ∧ ∀ item ∈ finite, last ∣ item.2.2 by
    obtain ⟨positive, -, divides⟩ := going finite nonneg 0 le_rfl _ rfl
    exact ⟨positive, divides⟩
  intro finite nonneg
  induction finite with
  | nil =>
    rintro unit positive last rfl
    exact ⟨positive, dvd_refl _, fun item mem => (nomatch mem)⟩
  | cons first rest ih =>
    intro unit positive last result
    have sign : 0 ≤ first.2.2 := nonneg first mem_cons_self
    rw [foldl_cons] at result
    by_cases nonzero : first.2.2 ≠ 0
    · rw [if_pos nonzero, bigintGcd_eq positive sign] at result
      obtain ⟨positiveLast, after, divides⟩ :=
        ih (fun item mem => nonneg item (mem_cons_of_mem _ mem)) _
          (Int.natCast_nonneg _) last result
      refine ⟨positiveLast, after.trans (Int.gcd_dvd_left ..), fun item mem => ?_⟩
      rcases mem_cons.mp mem with rfl | mem
      · exact after.trans (Int.gcd_dvd_right ..)
      · exact divides item mem
    · -- A weight of zero has every divisor.
      rw [if_neg nonzero] at result
      obtain ⟨positiveLast, after, divides⟩ :=
        ih (fun item mem => nonneg item (mem_cons_of_mem _ mem)) _ positive last result
      refine ⟨positiveLast, after, fun item mem => ?_⟩
      rcases mem_cons.mp mem with rfl | mem
      · rw [not_not.mp nonzero]
        exact dvd_zero _
      · exact divides item mem

theorem scaledPenalty_eq_zero (zero : ∀ item ∈ finite, item.2.2 = 0) (violates : Clause → Bool) :
    scaledPenalty violates finite = 0 := by
  refine sum_eq_zero fun x mem => ?_
  obtain ⟨item, lies, rfl⟩ := mem_map.mp mem
  rw [zero item lies, ite_self]

section

variable {unit : Int} (positive : 0 < unit) (nonneg : ∀ item ∈ finite, 0 ≤ item.2.2)
  (divides : ∀ item ∈ finite, unit ∣ item.2.2)

include positive nonneg divides

theorem copies_eq {item : Nat × Clause × Int} (mem : item ∈ finite) :
    ((item.2.2.tdiv unit).toNat : Int) * unit = item.2.2 := by
  rw [Int.toNat_of_nonneg (Int.tdiv_nonneg (nonneg item mem) positive.le),
    Int.tdiv_mul_cancel (divides item mem)]

theorem violations_unitItems (violates : Clause → Bool) :
    (violations violates (unitItems finite unit) : Int) * unit = scaledPenalty violates finite := by
  induction finite with
  | nil => simp [violations, unitItems, scaledPenalty]
  | cons item finite ih =>
    have rest := ih (fun other lies => nonneg other (mem_cons_of_mem _ lies))
      fun other lies => divides other (mem_cons_of_mem _ lies)
    have copies := copies_eq positive nonneg divides mem_cons_self
    rw [scaledPenalty_cons, ← rest, unitItems, flatMap_cons, violations, countP_append,
      countP_replicate, ← unitItems, ← violations]
    -- Either all copies are violated or none is.
    split
    · rw [Nat.cast_add, add_mul, copies]
    · rw [Nat.cast_add, add_mul, Nat.cast_zero, zero_mul]

theorem length_unitItems : ((unitItems finite unit).length : Int) = totalDuplicates finite unit := by
  suffices going : ∀ total : Int, total + (unitItems finite unit).length =
      finite.foldl (fun total item => total + item.2.2.tdiv unit) total by
    rw [totalDuplicates, ← going 0, zero_add]
  induction finite with
  | nil => exact fun total => by simp [unitItems]
  | cons item finite ih =>
    intro total
    have sign : 0 ≤ item.2.2.tdiv unit := Int.tdiv_nonneg (nonneg item mem_cons_self) positive.le
    rw [foldl_cons, ← ih (fun other lies => nonneg other (mem_cons_of_mem _ lies))
      (fun other lies => divides other (mem_cons_of_mem _ lies)), unitItems,
      flatMap_cons, length_append, length_replicate, ← unitItems]
    push_cast
    omega

end

end

theorem value_normalizeWeight (r : ℚ) : (normalizeWeight r).value = some r := by
  unfold normalizeWeight
  split
  · next integral => exact congrArg some (Rat.coe_int_num_of_den_eq_one integral)
  · rfl

theorem value_mulScalar {w : Weight} {x : ℚ} (value : w.value = some x) {n : Int} (sign : 0 ≤ n) :
    (w.mulScalar n).value = some (x * n) := by
  unfold Weight.mulScalar
  split
  · -- Zero times a weight is the weight zero.
    obtain rfl : n = 0 := by omega
    simp [Weight.zero, Weight.value]
  · cases w with
    | int k =>
      obtain rfl : (k : ℚ) = x := Option.some.inj value
      exact congrArg some (by push_cast; rfl)
    | rational r =>
      obtain rfl : r = x := Option.some.inj value
      rfl
    | infinite => cases value

theorem value_zero_add (w : Weight) : (Weight.zero.add w).value = w.value := by
  cases w with
  | int n => simp [Weight.zero, Weight.add, Weight.value]
  | rational r => simp [Weight.zero, Weight.add, Weight.value]
  | infinite => rfl

theorem asI64_of_le {n : Nat} (small : (n : Int) ≤ maxWeightDuplicates) : asI64 n = n := by
  unfold asI64 maxWeightDuplicates at *
  rw [Int.bmod_eq_of_le_mul_two (by omega) (by omega)]

end MaxSatSolver

end Nixie.Opt
