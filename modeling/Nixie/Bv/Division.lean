import Nixie.Bv.Multiplier

/-! Division and remainder as relations between words with a free quotient and remainder. -/

namespace Nixie.Bv.Circuit

open Netlist List

section

variable (k : ConstBits)

/--
The dividend is quotient times divisor plus remainder, and the remainder is below the divisor.

Neither the product nor the sum may wrap around.
A divisor of zero only leaves that the dividend is the remainder.
-/
def divisionRelation (bIsZero : Nat) (quot rem a b : List Nat) : Build Unit := do
  let fullProd ← newVars (2 * a.length)
  encodeMulFull k fullProd quot b
  (fullProd.drop a.length).forM fun high => addClause [.pos bIsZero, .neg high]
  let sum ← newVars a.length
  let carryOut ← encodeAdderCarry k sum (fullProd.take a.length) rem
  addGuardedNot bIsZero carryOut
  encodeWordEq k a sum
  let remLtB ← newVar
  encodeUltResult k rem b remLtB
  addClause [.pos bIsZero, .pos remLtB]

def newOnes : Nat → Build (List Nat)
  | 0 => return []
  | count + 1 => do
    let one ← newVar
    addClause [.pos one]
    let ones ← newOnes count
    return one :: ones

/-- The allocated word is the absolute value of a word with the given sign. -/
def absolute (sign : Nat) (abs word : List Nat) : Build Unit := do
  let neg ← newVars word.length
  encodeTwoComplement k neg word
  encodeMuxes k sign abs neg word

def signed (sign : Nat) (word : List Nat) : Build (List Nat) := do
  let neg ← newVars word.length
  encodeTwoComplement k neg word
  let result ← newVars word.length
  encodeMuxes k sign result neg word
  return result

def encodeUdiv (result a b : List Nat) : Build Unit := do
  let bIsZero ← newVar
  encodeAllZero k bIsZero b
  let (quot, rem) ← newVarPairs a.length
  divisionRelation k bIsZero quot rem a b
  let allOnes ← newOnes a.length
  encodeMuxes k bIsZero result allOnes quot

def encodeUrem (result a b : List Nat) : Build Unit := do
  let bIsZero ← newVar
  encodeAllZero k bIsZero b
  let quot ← newVars a.length
  let rem ← newVars a.length
  divisionRelation k bIsZero quot rem a b
  encodeMuxes k bIsZero result a rem

def signBit (word : List Nat) : Nat := word.getLastD k.constFalse

/--
The relation between the absolute values of two words.

Returns the test for a divisor of zero, the quotient and the remainder.
-/
def signedRelation (a b : List Nat) : Build (Nat × List Nat × List Nat) := do
  let bIsZero ← newVar
  encodeAllZero k bIsZero b
  let (absA, absB) ← newVarPairs a.length
  absolute k (signBit k a) absA a
  absolute k (signBit k b) absB b
  let (quotAbs, remAbs) ← newVarPairs a.length
  divisionRelation k bIsZero quotAbs remAbs absA absB
  return (bIsZero, quotAbs, remAbs)

/-- Signed division; a divisor of zero gives one for a negative dividend and minus one otherwise. -/
def encodeSdiv (result a b : List Nat) : Build Unit := do
  let (bIsZero, quotAbs, _) ← signedRelation k a b
  let resultSign ← newVar
  encodeXor k resultSign (signBit k a) (signBit k b)
  let signedQuot ← signed k resultSign quotAbs
  let oneBit ← newVar
  addClause [.pos oneBit]
  let notSignA ← newVar
  encodeNot k notSignA (signBit k a)
  -- One and minus one share the lowest bit and differ above it.
  let divZero := oneBit :: List.replicate (a.length - 1) notSignA
  encodeMuxes k bIsZero result divZero signedQuot

/-- Signed remainder with the sign of the dividend; a divisor of zero gives the dividend. -/
def encodeSrem (result a b : List Nat) : Build Unit := do
  let (bIsZero, _, remAbs) ← signedRelation k a b
  let signedRem ← signed k (signBit k a) remAbs
  encodeMuxes k bIsZero result a signedRem

end

variable {aimed : Prop} {known : Assignment → Prop} {s s' : Stage aimed known} {k : ConstBits}
  {m : Assignment} {quot rem a b result : List Nat} {bIsZero : Nat}

/-- What the relation says of the numbers. -/
def DivisionHolds (A B Q R : Nat) : Prop := if B = 0 then A = R else A = Q * B + R ∧ R < B

theorem divisionHolds_self (A B : Nat) : DivisionHolds A B (A / B) (A % B) := by
  unfold DivisionHolds
  split
  · next zero => rw [zero, Nat.mod_zero]
  · next pos => exact ⟨(Nat.div_add_mod' A B).symm, Nat.mod_lt A (Nat.pos_of_ne_zero pos)⟩

theorem DivisionHolds.unique {A B Q R : Nat} (holds : DivisionHolds A B Q R) (pos : B ≠ 0) :
    Q = A / B ∧ R = A % B := by
  rw [DivisionHolds, if_neg pos] at holds
  obtain ⟨whole, small⟩ := holds
  refine ⟨?_, ?_⟩
  · rw [whole, Nat.mul_comm, Nat.mul_add_div (Nat.pos_of_ne_zero pos),
      Nat.div_eq_of_lt small, Nat.add_zero]
  · rw [whole, Nat.mul_comm, Nat.mul_add_mod, Nat.mod_eq_of_lt small]

theorem bitsVal_halves (width : Nat) (full : List Nat) (length : full.length = 2 * width) :
    bitsVal m full =
      bitsVal m (full.take width) + 2 ^ width * bitsVal m (full.drop width) := by
  conv_lhs => rw [← take_append_drop width full]
  rw [bitsVal_append, length_take, length, Nat.min_eq_left (by omega)]

theorem divisionHolds_of_words {width A B Q R low high : Nat} {carry : Bool}
    (boundR : R < 2 ^ width) (product : low + 2 ^ width * high = Q * B)
    (sum : A + 2 ^ width * carry.toNat = low + R) (fits : B = 0 ∨ high = 0)
    (noCarry : B = 0 ∨ carry = false) (less : B = 0 ∨ R < B) : DivisionHolds A B Q R := by
  unfold DivisionHolds
  split
  · next zero =>
    -- The product is zero, and a remainder in the width leaves no carry.
    rw [zero, Nat.mul_zero] at product
    have lowZero : low = 0 := by omega
    cases carry with
    | false => simpa [lowZero] using sum
    | true =>
      rw [Bool.toNat_true, Nat.mul_one] at sum
      omega
  · next pos =>
    have high_eq := fits.resolve_left pos
    have carry_eq := noCarry.resolve_left pos
    rw [high_eq, Nat.mul_zero, Nat.add_zero] at product
    rw [carry_eq, Bool.toNat_false, Nat.mul_zero, Nat.add_zero, product] at sum
    exact ⟨sum, less.resolve_left pos⟩

theorem DivisionHolds.words {width A B Q R low high : Nat} (holds : DivisionHolds A B Q R)
    (boundA : A < 2 ^ width) (boundR : R < 2 ^ width)
    (product : low + 2 ^ width * high = Q * B) :
    (B = 0 ∨ high = 0) ∧ A = (low + R) % 2 ^ width ∧ (B = 0 ∨ low + R < 2 ^ width) ∧
      (B = 0 ∨ R < B) := by
  unfold DivisionHolds at holds
  split at holds
  · next zero =>
    rw [zero, Nat.mul_zero] at product
    have lowZero : low = 0 := by omega
    refine ⟨.inl zero, ?_, .inl zero, .inl zero⟩
    rw [lowZero, Nat.zero_add, Nat.mod_eq_of_lt boundR, holds]
  · obtain ⟨whole, small⟩ := holds
    -- The product is at most the dividend, so its high half is zero.
    have high_eq : high = 0 := by
      by_contra pos
      have := Nat.le_mul_of_pos_right (2 ^ width) (Nat.pos_of_ne_zero pos)
      omega
    rw [high_eq, Nat.mul_zero, Nat.add_zero] at product
    refine ⟨.inr high_eq, ?_, .inr (by omega), .inr small⟩
    rw [product, ← whole, Nat.mod_eq_of_lt boundA]

theorem guardedHigh_asserts {guard : Nat} {vars : List Nat} (hguard : guard < s.list.next)
    (has : s.Has vars) :
    Asserts s (vars.forM fun high => addClause [.pos guard, .neg high]) fun m =>
      m guard = true ∨ bitsVal m vars = 0 := by
  have each : Asserts s (vars.forM fun high => addClause [.pos guard, .neg high]) fun m =>
      ∀ high ∈ vars, Satisfies m [.pos guard, .neg high] := by
    refine Asserts.forM fun high mem s' step => addClause_asserts ?_
    simp [step.lt hguard, step.lt (has high mem)]
  refine each.congr fun m _ => ?_
  rw [bitsVal_eq_zero_iff]
  simp [Satisfies, forall_or_left]

theorem divisionRelation_asserts (hosts : Hosts k s) (hz : bIsZero < s.list.next)
    (lengthQ : quot.length = a.length) (lengthR : rem.length = a.length)
    (lengthB : b.length = a.length) (hq : s.Has quot) (hr : s.Has rem) (ha : s.Has a)
    (hb : s.Has b) (zero : s.Entails fun m => m bIsZero = decide (bitsVal m b = 0)) :
    Asserts s (divisionRelation k bIsZero quot rem a b) fun m =>
      DivisionHolds (bitsVal m a) (bitsVal m b) (bitsVal m quot) (bitsVal m rem) := by
  intro aim
  have boundA : ∀ m, bitsVal m a < 2 ^ a.length := fun m => bitsVal_lt a
  have boundR : ∀ m, bitsVal m rem < 2 ^ a.length := fun m => lengthR ▸ bitsVal_lt rem
  -- The product in twice the width.
  have localProduct : Local s.list.next fun m => bitsVal m quot * bitsVal m b := by
    intro m m' agree
    simp only [hq.local_bitsVal agree, hb.local_bitsVal agree]
  have productFits : ∀ m, bitsVal m quot * bitsVal m b < 2 ^ (2 * a.length) := by
    intro m
    rw [Nat.two_mul, Nat.pow_add]
    exact Nat.mul_lt_mul'' (lengthQ ▸ bitsVal_lt quot) (lengthB ▸ bitsVal_lt b)
  refine defineWord_then localProduct productFits (fun full s' step length has =>
    encodeMulFull_asserts (hosts.later step) (by rw [length, lengthQ]) (by rw [lengthB, lengthQ])
      has (hq.later step) (hb.later step)) fun full s₂ upTo₂ lengthF hasF₂ product => ?_
  have hasHigh : s₂.Has (full.drop a.length) := fun v mem =>
    hasF₂ v (mem_of_mem_drop mem)
  have hasLow : s₂.Has (full.take a.length) := fun v mem =>
    hasF₂ v (mem_of_mem_take mem)
  have halves : ∀ m, s₂.Live m → bitsVal m (full.take a.length) +
      2 ^ a.length * bitsVal m (full.drop a.length) = bitsVal m quot * bitsVal m b := by
    intro m live
    rw [← bitsVal_halves a.length full lengthF]
    exact product m live
  have guard : ∀ m, s₂.Live m → (m bIsZero = true ↔ bitsVal m b = 0) := by
    intro m live
    have said : m bIsZero = decide (bitsVal m b = 0) := zero.later upTo₂ m live
    rw [said, decide_eq_true_iff]
  -- What is wanted of the words follows from what is wanted of the relation.
  have wanted : ∀ (h : aimed) m, s₂.Live m → _ := fun h m live =>
    (aim.later upTo₂ h m live).words (boundA m) (boundR m) (halves m live)
  refine (guardedHigh_asserts (upTo₂.lt hz) hasHigh fun h m live => ?_).bind
    fun _ s₃ step₃ highZero => ?_
  · dsimp only
    rw [guard m live]
    exact (wanted h m live).1
  have localSum : Local s₃.list.next fun m =>
      bitsVal m (full.take a.length) + bitsVal m rem := by
    intro m m' agree
    have low := (hasLow.later step₃).local_bitsVal agree
    have rest := ((hr.later upTo₂).later step₃).local_bitsVal agree
    dsimp only at low rest ⊢
    rw [low, rest]
  refine (newVars_builds a.length _ localSum).bind fun sum s₄ step₄ ⟨lengthS, hasS, wantS⟩ => ?_
  have upTo₄ := step₃.trans step₄
  have from₄ := upTo₂.trans upTo₄
  refine (encodeAdderCarry_builds (hosts.later from₄)
    (by rw [length_take, lengthF, lengthS]; omega) (by rw [lengthR, lengthS]) hasS
    (hasLow.later upTo₄) (hr.later from₄) fun h m live => ?_).bind
    fun carry s₅ step₅ ⟨hcarry, adds⟩ => ?_
  · rw [lengthS]
    exact wantS h m live
  have upTo₅ := upTo₄.trans step₅
  have from₅ := upTo₂.trans upTo₅
  have total : ∀ m, s₅.Live m → bitsVal m sum + 2 ^ a.length * (carry.value m).toNat =
      bitsVal m (full.take a.length) + bitsVal m rem := by
    intro m live
    have counts := adds m live
    dsimp only at counts
    rwa [lengthS] at counts
  have sumBound : ∀ m, bitsVal m sum < 2 ^ a.length := fun m => lengthS ▸ bitsVal_lt sum
  refine (addGuardedNot_asserts (from₅.lt hz) (.self hcarry) fun h m live => ?_).bind
    fun _ s₆ step₆ noCarry => ?_
  · -- Without a wrap the carry is off.
    have before := upTo₅.narrows m live
    dsimp only
    rw [guard m before]
    refine (wanted h m before).2.2.1.imp_right fun fits => ?_
    have counts := total m live
    cases on : carry.value m with
    | false => rfl
    | true =>
      rw [on, Bool.toNat_true, Nat.mul_one] at counts
      omega
  have upTo₆ := upTo₅.trans step₆
  have from₆ := upTo₂.trans upTo₆
  refine (encodeWordEq_asserts (hosts.later from₆) lengthS.symm (ha.later from₆)
    ((hasS.later step₅).later step₆) fun h m live => ?_).bind fun _ s₇ step₇ equation => ?_
  · have counts := total m (step₆.narrows m live)
    have remainder := (wanted h m (upTo₆.narrows m live)).2.1
    dsimp only
    rw [remainder, ← counts, Nat.add_mul_mod_self_left, Nat.mod_eq_of_lt (sumBound m)]
  have upTo₇ := upTo₆.trans step₇
  have from₇ := upTo₂.trans upTo₇
  have localLess : Local s₇.list.next fun m => decide (bitsVal m rem < bitsVal m b) := by
    intro m m' agree
    have left := (hr.later from₇).local_bitsVal agree
    have right := (hb.later from₇).local_bitsVal agree
    dsimp only at left right ⊢
    rw [left, right]
  refine define_then localLess (fun less s' step within =>
    encodeUltResult_asserts ((hosts.later from₇).later step) (by rw [lengthR, lengthB])
      ((hr.later from₇).later step) ((hb.later from₇).later step) within)
    fun less s₉ step₉ hless compared => ?_
  have from₉ := from₇.trans step₉
  have upTo₉ := upTo₇.trans step₉
  have bounded : Asserts s₉ (addClause [.pos bIsZero, .pos less]) fun m =>
      m bIsZero = true ∨ m less = true := by
    refine (addClause_asserts ?_).congr fun m live => ?_
    · simp [from₉.lt hz, hless]
    · simp [Satisfies]
  refine (bounded fun h m live => ?_).imp fun _ s' step' clause => fun m live => ?_
  · have before := upTo₉.narrows m live
    have said : m less = decide (bitsVal m rem < bitsVal m b) := compared m live
    dsimp only
    rw [guard m before, said, decide_eq_true_iff]
    exact (wanted h m before).2.2.2
  · -- The clauses say again what the words are.
    have at₉ := step'.narrows m live
    have at₇ := step₉.narrows m at₉
    have at₆ := step₇.narrows m at₇
    have at₅ := step₆.narrows m at₆
    have at₂ := upTo₅.narrows m at₅
    have zero_iff := guard m at₂
    have said : m less = decide (bitsVal m rem < bitsVal m b) := compared m at₉
    have same : bitsVal m a = bitsVal m sum := equation m at₇
    refine divisionHolds_of_words (boundR m) (halves m at₂) (same ▸ total m at₅) ?_ ?_ ?_
    · rw [← zero_iff]
      exact highZero m (step₄.narrows m (step₅.narrows m at₅))
    · rw [← zero_iff]
      exact noCarry m at₆
    · rw [← zero_iff]
      have clause : m bIsZero = true ∨ m less = true := clause m live
      rwa [said, decide_eq_true_iff] at clause

theorem zeroTest_then {β : Type} {rest : Nat → Build β} {goal : β → Stage aimed known → Prop}
    (hosts : Hosts k s) (hb : s.Has b)
    (builds : ∀ z (s' : Stage aimed known), Extends s s' → z < s'.list.next →
      (s'.Entails fun m => m z = decide (bitsVal m b = 0)) → Builds s' (rest z) goal) :
    Builds s (do let z ← newVar; encodeAllZero k z b; rest z) goal := by
  have isLocal : Local s.list.next fun m => decide (bitsVal m b = 0) := by
    intro m m' agree
    have same := hb.local_bitsVal agree
    dsimp only at same ⊢
    rw [same]
  exact define_then isLocal (fun z s' step within =>
    encodeAllZero_asserts (hosts.later step) (hb.later step) within) builds

theorem newOnes_builds (count : Nat) : Builds s (newOnes count) fun ones s' =>
      ones.length = count ∧ s'.Has ones ∧ s'.Entails fun m => bitsVal m ones + 1 = 2 ^ count := by
  induction count generalizing s with
  | zero => exact .ret ⟨rfl, Stage.has_nil, fun m _ => by simp⟩
  | succ count ih =>
    have isLocal : Local s.list.next fun _ => true := fun _ _ _ => rfl
    refine define_then isLocal (fun one s' step within =>
      (addClause_asserts (by simpa using within)).congr fun m _ => ?_)
      fun one s₁ step₁ hone pinned => ?_
    · simp [Satisfies]
    · refine ih.bind fun ones s₂ step₂ built => ?_
      obtain ⟨length, has, counts⟩ := built
      refine .ret ⟨by simp [length], Stage.has_cons.mpr ⟨step₂.lt hone, has⟩, fun m live => ?_⟩
      have on : m one = true := pinned m (step₂.narrows m live)
      have rest : bitsVal m ones + 1 = 2 ^ count := counts m live
      dsimp only
      rw [bitsVal_cons, on, Bool.toNat_true, Nat.pow_succ']
      omega

theorem quotRem_mod {width A : Nat} (bound : A < 2 ^ width) (B : Nat) :
    A / B % 2 ^ width = A / B ∧ A % B % 2 ^ width = A % B :=
  ⟨Nat.mod_eq_of_lt ((Nat.div_le_self A B).trans_lt bound),
    Nat.mod_eq_of_lt ((Nat.mod_le A B).trans_lt bound)⟩

theorem local_quotRem (ha : s.Has a) (hb : s.Has b) :
    Local s.list.next (fun m => bitsVal m a / bitsVal m b) ∧
      Local s.list.next fun m => bitsVal m a % bitsVal m b := by
  constructor
  all_goals
    intro m m' agree
    have left := ha.local_bitsVal agree
    have right := hb.local_bitsVal agree
    dsimp only at left right ⊢
    rw [left, right]

theorem encodeUdiv_asserts (hosts : Hosts k s) (lengthA : a.length = result.length)
    (lengthB : b.length = result.length) (has : s.Has result) (ha : s.Has a) (hb : s.Has b) :
    Asserts s (encodeUdiv k result a b) fun m => bitsVal m result =
      if bitsVal m b = 0 then 2 ^ result.length - 1 else bitsVal m a / bitsVal m b := by
  intro aim
  refine zeroTest_then hosts hb fun z s₁ step₁ hz zero => ?_
  obtain ⟨localQ, localR⟩ := local_quotRem (ha.later step₁) (hb.later step₁)
  refine (newVarPairs_builds a.length _ _ localQ localR).bind
    fun words s₂ step₂ ⟨lengthQ, lengthR, hq, hr, want⟩ => ?_
  have upTo₂ := step₁.trans step₂
  refine (divisionRelation_asserts (hosts.later upTo₂) (step₂.lt hz) lengthQ lengthR
    (by rw [lengthB, lengthA]) hq hr (ha.later upTo₂) (hb.later upTo₂) (zero.later step₂)
    fun h m live => ?_).bind fun _ s₃ step₃ relation => ?_
  · -- The quotient and the remainder are the wanted ones.
    obtain ⟨quot_eq, rem_eq⟩ := want h m live
    have fits := quotRem_mod (@bitsVal_lt _ m a) (bitsVal m b)
    rw [quot_eq, rem_eq, fits.1, fits.2]
    exact divisionHolds_self _ _
  have upTo₃ := upTo₂.trans step₃
  refine (newOnes_builds a.length).bind fun ones s₄ step₄ ⟨lengthO, ho, ones_eq⟩ => ?_
  have upTo₄ := upTo₃.trans step₄
  have hz₄ := step₄.lt (step₃.lt (step₂.lt hz))
  refine (((encodeMuxes_asserts (hosts.later upTo₄) (by rw [lengthO, lengthA])
    (by rw [lengthQ, lengthA]) (has.later upTo₄) ho ((hq.later step₃).later step₄)
    hz₄).congr fun m live => ?_) (aim.later upTo₄))
  -- The choice is between all ones and the quotient.
  have at₃ := step₄.narrows m live
  have isZero : m z = decide (bitsVal m b = 0) := zero m (step₂.narrows m (step₃.narrows m at₃))
  have full : bitsVal m ones + 1 = 2 ^ a.length := ones_eq m live
  rw [isZero]
  by_cases divisor : bitsVal m b = 0
  · simp only [divisor, decide_true, cond_true, if_true]
    rw [← lengthA, ← full, Nat.add_sub_cancel]
  · have quot_eq := (relation m at₃).unique divisor
    simp only [divisor, decide_false, cond_false, if_false, quot_eq.1]

theorem encodeUrem_asserts (hosts : Hosts k s) (lengthA : a.length = result.length)
    (lengthB : b.length = result.length) (has : s.Has result) (ha : s.Has a) (hb : s.Has b) :
    Asserts s (encodeUrem k result a b) fun m =>
      bitsVal m result = bitsVal m a % bitsVal m b := by
  intro aim
  refine zeroTest_then hosts hb fun z s₁ step₁ hz zero => ?_
  obtain ⟨localQ, -⟩ := local_quotRem (ha.later step₁) (hb.later step₁)
  refine (newVars_builds a.length _ localQ).bind fun quot s₂ step₂ ⟨lengthQ, hq, wantQ⟩ => ?_
  have upTo₂ := step₁.trans step₂
  obtain ⟨-, localR⟩ := local_quotRem (ha.later upTo₂) (hb.later upTo₂)
  refine (newVars_builds a.length _ localR).bind fun rem s₃ step₃ ⟨lengthR, hr, wantR⟩ => ?_
  have upTo₃ := upTo₂.trans step₃
  refine (divisionRelation_asserts (hosts.later upTo₃) (step₃.lt (step₂.lt hz)) lengthQ lengthR
    (by rw [lengthB, lengthA]) (hq.later step₃) hr (ha.later upTo₃) (hb.later upTo₃)
    ((zero.later step₂).later step₃) fun h m live => ?_).bind fun _ s₄ step₄ relation => ?_
  · -- The quotient and the remainder are the wanted ones.
    have quot_eq : bitsVal m quot = _ := wantQ.later step₃ h m live
    have rem_eq : bitsVal m rem = _ := wantR h m live
    have fits := quotRem_mod (@bitsVal_lt _ m a) (bitsVal m b)
    dsimp only
    rw [quot_eq, rem_eq, fits.1, fits.2]
    exact divisionHolds_self _ _
  have upTo₄ := upTo₃.trans step₄
  refine (((encodeMuxes_asserts (hosts.later upTo₄) lengthA (by rw [lengthR, lengthA])
    (has.later upTo₄) (ha.later upTo₄) (hr.later step₄)
    (step₄.lt (step₃.lt (step₂.lt hz)))).congr fun m live => ?_) (aim.later upTo₄))
  -- The choice is between the dividend and the remainder.
  have at₃ := step₄.narrows m live
  have isZero : m z = decide (bitsVal m b = 0) := zero m (step₂.narrows m (step₃.narrows m at₃))
  rw [isZero]
  by_cases divisor : bitsVal m b = 0
  · simp only [divisor, decide_true, cond_true, Nat.mod_zero]
  · have rem_eq := (relation m live).unique divisor
    simp only [divisor, decide_false, cond_false, rem_eq.2]

def complement (width n : Nat) : Nat := (2 ^ width - n) % 2 ^ width

theorem complement_lt (width n : Nat) : complement width n < 2 ^ width :=
  Nat.mod_lt _ (Nat.two_pow_pos width)

def underSign (width : Nat) (sign : Bool) (n : Nat) : Nat := bif sign then complement width n else n

theorem underSign_lt {width n : Nat} (sign : Bool) (bound : n < 2 ^ width) :
    underSign width sign n < 2 ^ width := by
  cases sign with
  | false => exact bound
  | true => exact complement_lt width n

theorem underSign_eq_zero_iff {width n : Nat} {sign : Bool} (bound : n < 2 ^ width) :
    underSign width sign n = 0 ↔ n = 0 := by
  cases sign with
  | false => rfl
  | true =>
    show (2 ^ width - n) % 2 ^ width = 0 ↔ n = 0
    by_cases zero : n = 0
    · simp [zero]
    · rw [Nat.mod_eq_of_lt (by omega)]
      omega

variable {sign : Nat} {abs word : List Nat}

theorem local_complement (has : s.Has word) :
    Local s.list.next fun m => complement word.length (bitsVal m word) := by
  intro m m' agree
  have same := has.local_bitsVal agree
  dsimp only at same ⊢
  rw [same]

theorem local_underSign (hsign : sign < s.list.next) (has : s.Has word) :
    Local s.list.next fun m => underSign word.length (m sign) (bitsVal m word) := by
  intro m m' agree
  have same := has.local_bitsVal agree
  dsimp only at same ⊢
  rw [same, agree sign hsign]

theorem complement_then {β : Type} {rest : List Nat → Build β}
    {goal : β → Stage aimed known → Prop} (hosts : Hosts k s) (hw : s.Has word)
    (builds : ∀ neg (s' : Stage aimed known), Extends s s' → neg.length = word.length →
      s'.Has neg → (s'.Entails fun m => bitsVal m neg = complement word.length (bitsVal m word)) →
      Builds s' (rest neg) goal) :
    Builds s (do let neg ← newVars word.length; encodeTwoComplement k neg word; rest neg) goal := by
  refine defineWord_then (local_complement hw) (fun m => complement_lt _ _)
    (fun neg s' step length has => ?_) builds
  refine (encodeTwoComplement_asserts (hosts.later step) length.symm has (hw.later step)).congr
    fun m _ => ?_
  rw [length, complement]

theorem absolute_asserts (hosts : Hosts k s) (hsign : sign < s.list.next)
    (length : abs.length = word.length) (habs : s.Has abs) (hw : s.Has word) :
    Asserts s (absolute k sign abs word) fun m =>
      bitsVal m abs = underSign word.length (m sign) (bitsVal m word) := by
  intro aim
  refine complement_then hosts hw fun neg s₁ step₁ lengthN hneg neg_eq => ?_
  refine ((encodeMuxes_asserts (hosts.later step₁) (by rw [lengthN, length]) length.symm
    (habs.later step₁) hneg (hw.later step₁) (step₁.lt hsign)).congr fun m live => ?_)
    (aim.later step₁)
  have negated : bitsVal m neg = complement word.length (bitsVal m word) := neg_eq m live
  rw [negated, underSign]

theorem signed_builds (hosts : Hosts k s) (hsign : sign < s.list.next) (hw : s.Has word) :
    Builds s (signed k sign word) fun out s' => out.length = word.length ∧ s'.Has out ∧
      s'.Entails fun m => bitsVal m out = underSign word.length (m sign) (bitsVal m word) := by
  refine complement_then hosts hw fun neg s₁ step₁ lengthN hneg neg_eq => ?_
  refine defineWord_then (local_underSign (step₁.lt hsign) (hw.later step₁))
    (fun m => underSign_lt _ (bitsVal_lt word)) (fun out s' step length has => ?_)
    fun out s₂ step₂ length has out_eq => .ret ⟨length, has, out_eq⟩
  refine (encodeMuxes_asserts ((hosts.later step₁).later step) (by rw [lengthN, length])
    length.symm has (hneg.later step) ((hw.later step₁).later step)
    (step.lt (step₁.lt hsign))).congr fun m live => ?_
  have negated : bitsVal m neg = complement word.length (bitsVal m word) :=
    neg_eq m (step.narrows m live)
  rw [negated, underSign]

theorem signBit_lt (hosts : Hosts k s) (has : s.Has word) : signBit k word < s.list.next := by
  unfold signBit
  rw [getLastD_eq_getLast?]
  cases last : word.getLast? with
  | none => exact hosts.false_lt
  | some v => exact has v (mem_of_getLast? last)

theorem signedRelation_builds (hosts : Hosts k s) (lengthB : b.length = a.length) (ha : s.Has a)
    (hb : s.Has b) :
    Builds s (signedRelation k a b) fun r s' =>
      r.1 < s'.list.next ∧ (s'.Entails fun m => m r.1 = decide (bitsVal m b = 0)) ∧
        (r.2.1.length = a.length ∧ s'.Has r.2.1) ∧ (r.2.2.length = a.length ∧ s'.Has r.2.2) ∧
        s'.Entails fun m => bitsVal m b ≠ 0 →
          bitsVal m r.2.1 = underSign a.length (m (signBit k a)) (bitsVal m a) /
              underSign a.length (m (signBit k b)) (bitsVal m b) ∧
            bitsVal m r.2.2 = underSign a.length (m (signBit k a)) (bitsVal m a) %
              underSign a.length (m (signBit k b)) (bitsVal m b) := by
  refine zeroTest_then hosts hb fun z s₁ step₁ hz zero => ?_
  -- The two absolute values.
  have localA := local_underSign (signBit_lt (hosts.later step₁) (ha.later step₁)) (ha.later step₁)
  have localB := local_underSign (signBit_lt (hosts.later step₁) (hb.later step₁)) (hb.later step₁)
  refine (newVarPairs_builds a.length _ _ localA localB).bind
    fun abs s₂ step₂ ⟨lengthAbsA, lengthAbsB, hasA, hasB, want⟩ => ?_
  have upTo₂ := step₁.trans step₂
  have hosts₂ := hosts.later upTo₂
  refine (absolute_asserts hosts₂ (signBit_lt hosts₂ (ha.later upTo₂)) lengthAbsA hasA
    (ha.later upTo₂) fun h m live => ?_).bind fun _ s₃ step₃ absA_eq => ?_
  · dsimp only
    rw [(want h m live).1, Nat.mod_eq_of_lt (underSign_lt _ (bitsVal_lt a))]
  have upTo₃ := upTo₂.trans step₃
  have hosts₃ := hosts.later upTo₃
  refine (absolute_asserts hosts₃ (signBit_lt hosts₃ (hb.later upTo₃))
    (by rw [lengthAbsB, lengthB]) (hasB.later step₃) (hb.later upTo₃) fun h m live => ?_).bind
    fun _ s₄ step₄ absB_eq => ?_
  · dsimp only
    rw [(want.later step₃ h m live).2, Nat.mod_eq_of_lt (lengthB ▸ underSign_lt _ (bitsVal_lt b))]
  have upTo₄ := upTo₃.trans step₄
  -- The quotient and the remainder of the absolute values are wanted.
  have from₄ := step₃.trans step₄
  obtain ⟨localQ, localR⟩ := local_quotRem (hasA.later from₄) (hasB.later from₄)
  refine (newVarPairs_builds a.length _ _ localQ localR).bind
    fun words s₅ step₅ ⟨lengthQ, lengthR, hq, hr, want'⟩ => ?_
  have upTo₅ := upTo₄.trans step₅
  have from₅ := from₄.trans step₅
  have boundA : ∀ m, bitsVal m abs.1 < 2 ^ a.length := fun m => lengthAbsA ▸ bitsVal_lt abs.1
  have zeroAbs : s₅.Entails fun m => m z = decide (bitsVal m abs.2 = 0) := by
    intro m live
    have at₄ := step₅.narrows m live
    have absB : bitsVal m abs.2 = _ := absB_eq m at₄
    have isZero : m z = decide (bitsVal m b = 0) :=
      zero m (step₂.narrows m (step₃.narrows m (step₄.narrows m at₄)))
    rw [isZero, absB, decide_eq_decide, underSign_eq_zero_iff (bitsVal_lt b)]
  refine (divisionRelation_asserts (hosts.later upTo₅) ((from₅.trans (.refl _)).lt (step₂.lt hz))
    (by rw [lengthQ, lengthAbsA]) (by rw [lengthR, lengthAbsA]) (by rw [lengthAbsB, lengthAbsA])
    hq hr (hasA.later from₅) (hasB.later from₅) zeroAbs fun h m live => ?_).bind
    fun _ s₆ step₆ relation => ?_
  · obtain ⟨quot_eq, rem_eq⟩ := want' h m live
    have fits := quotRem_mod (boundA m) (bitsVal m abs.2)
    rw [quot_eq, rem_eq, fits.1, fits.2]
    exact divisionHolds_self _ _
  have upTo₆ := from₅.trans step₆
  refine .ret ⟨upTo₆.lt (step₂.lt hz), (zero.later step₂).later upTo₆,
    ⟨lengthQ, hq.later step₆⟩, ⟨lengthR, hr.later step₆⟩, fun m live pos => ?_⟩
  have at₅ := step₆.narrows m live
  have at₄ := step₅.narrows m at₅
  have absA : bitsVal m abs.1 = _ := absA_eq m (step₄.narrows m at₄)
  have absB : bitsVal m abs.2 = _ := absB_eq m at₄
  have nonzero : bitsVal m abs.2 ≠ 0 := by
    rw [absB, Ne, underSign_eq_zero_iff (bitsVal_lt b)]
    exact pos
  have unique := (relation m live).unique nonzero
  rwa [absA, absB, lengthB] at unique

/-- Signed division of numbers of a width with the given signs. -/
def sdivVal (width : Nat) (signA signB : Bool) (A B : Nat) : Nat :=
  if B = 0 then (bif signA then 1 else 2 ^ width - 1)
  else underSign width (signA ^^ signB) (underSign width signA A / underSign width signB B)

/-- Signed remainder of numbers of a width with the given signs. -/
def sremVal (width : Nat) (signA signB : Bool) (A B : Nat) : Nat :=
  if B = 0 then A
  else underSign width signA (underSign width signA A % underSign width signB B)

theorem bitsVal_replicate_true {v : Nat} (on : m v = true) (width : Nat) :
    bitsVal m (List.replicate width v) + 1 = 2 ^ width := by
  induction width with
  | zero => rfl
  | succ width ih =>
    rw [replicate_succ, bitsVal_cons, on, Bool.toNat_true, Nat.pow_succ']
    omega

theorem bitsVal_divZero {one high width : Nat} (pos : 0 < width) (on : m one = true) :
    bitsVal m (one :: List.replicate (width - 1) high) =
      bif !m high then 1 else 2 ^ width - 1 := by
  rw [bitsVal_cons, on, Bool.toNat_true]
  cases isHigh : m high with
  | false => rw [bitsVal_replicate isHigh]; rfl
  | true =>
    have ones := bitsVal_replicate_true isHigh (width - 1)
    have double : 2 ^ width = 2 * 2 ^ (width - 1) := by
      rw [← Nat.pow_succ']
      congr 1
      omega
    simp only [Bool.not_true, cond_false]
    omega

theorem encodeSdiv_asserts (hosts : Hosts k s) (pos : 0 < result.length)
    (lengthA : a.length = result.length) (lengthB : b.length = result.length)
    (has : s.Has result) (ha : s.Has a) (hb : s.Has b) :
    Asserts s (encodeSdiv k result a b) fun m => bitsVal m result =
      sdivVal result.length (m (signBit k a)) (m (signBit k b)) (bitsVal m a) (bitsVal m b) := by
  intro aim
  refine (signedRelation_builds hosts (by rw [lengthB, lengthA]) ha hb).bind
    fun r s₁ step₁ ⟨hz, zero, ⟨lengthQ, hq⟩, _, relation⟩ => ?_
  -- The sign of the quotient.
  have hosts₁ := hosts.later step₁
  have hsa := signBit_lt hosts₁ (ha.later step₁)
  have hsb := signBit_lt hosts₁ (hb.later step₁)
  have localSign : Local s₁.list.next fun m => m (signBit k a) ^^ m (signBit k b) := by
    intro m m' agree
    simp only [agree _ hsa, agree _ hsb]
  refine define_then localSign (fun sign s' step within => encodeXor_asserts (hosts₁.later step)
    within (step.lt hsa) (step.lt hsb)) fun sign s₂ step₂ hsign sign_eq => ?_
  have upTo₂ := step₁.trans step₂
  refine (signed_builds (hosts.later upTo₂) hsign (hq.later step₂)).bind
    fun signedQuot s₃ step₃ ⟨lengthS, hs, signed_eq⟩ => ?_
  have upTo₃ := upTo₂.trans step₃
  -- The two bits of the value for a divisor of zero.
  have localTrue : Local s₃.list.next fun _ => true := fun _ _ _ => rfl
  refine define_then localTrue (fun one s' step within =>
    (addClause_asserts (by simpa using within)).congr fun m _ => ?_)
    fun one s₄ step₄ hone one_eq => ?_
  · simp [Satisfies]
  have upTo₄ := upTo₃.trans step₄
  have hsa₄ := signBit_lt (hosts.later upTo₄) (ha.later upTo₄)
  have localNot : Local s₄.list.next fun m => !m (signBit k a) := by
    intro m m' agree
    simp only [agree _ hsa₄]
  refine define_then localNot (fun high s' step within =>
    encodeNot_asserts ((hosts.later upTo₄).later step) within (step.lt hsa₄))
    fun high s₅ step₅ hhigh high_eq => ?_
  have upTo₅ := upTo₄.trans step₅
  have hasZero : s₅.Has (one :: replicate (a.length - 1) high) := by
    refine Stage.has_cons.mpr ⟨step₅.lt hone, fun v mem => ?_⟩
    rw [eq_of_mem_replicate mem]
    exact hhigh
  have lengthZero : (one :: replicate (a.length - 1) high).length = result.length := by
    rw [length_cons, length_replicate, lengthA]
    omega
  have from₂ := (step₃.trans step₄).trans step₅
  refine ((encodeMuxes_asserts (hosts.later upTo₅) lengthZero (by rw [lengthS, lengthQ, lengthA])
    (has.later upTo₅) hasZero ((hs.later step₄).later step₅)
    (from₂.lt (step₂.lt hz))).congr fun m live => ?_) (aim.later upTo₅)
  -- The choice is between the value for zero and the signed quotient.
  have at₄ := step₅.narrows m live
  have at₃ := step₄.narrows m at₄
  have at₂ := step₃.narrows m at₃
  have at₁ := step₂.narrows m at₂
  have isZero : m r.1 = decide (bitsVal m b = 0) := zero m at₁
  have on : m one = true := one_eq m at₄
  have notSign : m high = !m (signBit k a) := high_eq m live
  have quotSign : m sign = (m (signBit k a) ^^ m (signBit k b)) := sign_eq m at₂
  have quotient : bitsVal m signedQuot = underSign r.2.1.length (m sign) (bitsVal m r.2.1) :=
    signed_eq m at₃
  rw [isZero, sdivVal]
  by_cases divisor : bitsVal m b = 0
  · rw [if_pos divisor, bitsVal_divZero (lengthA ▸ pos) on, notSign, Bool.not_not, lengthA]
    simp [divisor]
  · have abs_eq := (relation m at₁ divisor).1
    rw [if_neg divisor, quotient, quotSign, lengthQ, abs_eq, lengthA]
    simp [divisor]

theorem encodeSrem_asserts (hosts : Hosts k s) (lengthA : a.length = result.length)
    (lengthB : b.length = result.length) (has : s.Has result) (ha : s.Has a) (hb : s.Has b) :
    Asserts s (encodeSrem k result a b) fun m => bitsVal m result =
      sremVal result.length (m (signBit k a)) (m (signBit k b)) (bitsVal m a) (bitsVal m b) := by
  intro aim
  refine (signedRelation_builds hosts (by rw [lengthB, lengthA]) ha hb).bind
    fun r s₁ step₁ ⟨hz, zero, _, ⟨lengthR, hr⟩, relation⟩ => ?_
  have hosts₁ := hosts.later step₁
  refine (signed_builds hosts₁ (signBit_lt hosts₁ (ha.later step₁)) hr).bind
    fun signedRem s₂ step₂ ⟨lengthS, hs, signed_eq⟩ => ?_
  have upTo₂ := step₁.trans step₂
  refine ((encodeMuxes_asserts (hosts.later upTo₂) lengthA (by rw [lengthS, lengthR, lengthA])
    (has.later upTo₂) (ha.later upTo₂) hs (step₂.lt hz)).congr fun m live => ?_)
    (aim.later upTo₂)
  -- The choice is between the dividend and the signed remainder.
  have at₁ := step₂.narrows m live
  have isZero : m r.1 = decide (bitsVal m b = 0) := zero m at₁
  have remainder : bitsVal m signedRem =
      underSign r.2.2.length (m (signBit k a)) (bitsVal m r.2.2) := signed_eq m live
  rw [isZero, sremVal]
  by_cases divisor : bitsVal m b = 0
  · simp [divisor]
  · have abs_eq := (relation m at₁ divisor).2
    rw [if_neg divisor, remainder, lengthR, abs_eq, lengthA]
    simp [divisor]

end Nixie.Bv.Circuit
