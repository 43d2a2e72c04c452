import Mathlib.Data.Nat.Digits.Defs
import Nixie.Logic.Netlist

/-! Numbers that lists of bits stand for, lowest bit first, and words of fresh variables. -/

namespace Nixie

open Nat

variable {α β : Type} {value value' : α → Bool} {value₂ : β → Bool}

/-- The number whose binary digits are the bits, lowest first. -/
def bitsVal (value : α → Bool) (bits : List α) : Nat :=
  Nat.ofDigits 2 (bits.map fun bit => (value bit).toNat)

@[simp] theorem bitsVal_nil : bitsVal value [] = 0 := rfl

@[simp] theorem bitsVal_cons (bit : α) (bits : List α) :
    bitsVal value (bit :: bits) = (value bit).toNat + 2 * bitsVal value bits := by
  simp [bitsVal, Nat.ofDigits_cons]

theorem bitsVal_append (low high : List α) :
    bitsVal value (low ++ high) = bitsVal value low + 2 ^ low.length * bitsVal value high := by
  simp [bitsVal, ofDigits_append]

theorem bitsVal_lt (bits : List α) : bitsVal value bits < 2 ^ bits.length := by
  -- Each binary digit is at most one.
  have digits : ∀ d ∈ bits.map fun bit => (value bit).toNat, d < 2 := by
    intro d mem
    obtain ⟨bit, _, rfl⟩ := List.mem_map.mp mem
    exact Bool.toNat_lt _
  simpa [bitsVal] using ofDigits_lt_base_pow_length one_lt_two digits

theorem bitsVal_congr {bits : List α} (same : ∀ bit ∈ bits, value bit = value' bit) :
    bitsVal value bits = bitsVal value' bits := by
  unfold bitsVal
  congr 1
  exact List.map_congr_left fun bit mem => by rw [same bit mem]

theorem bitsVal_map (f : β → α) (bits : List β) :
    bitsVal value (bits.map f) = bitsVal (fun bit => value (f bit)) bits := by
  simp [bitsVal, Function.comp_def]

theorem bitsVal_replicate {bit : α} (off : value bit = false) (width : Nat) :
    bitsVal value (List.replicate width bit) = 0 := by
  induction width with
  | zero => rfl
  | succ width ih => simp [List.replicate_succ, off, ih]

theorem bitsVal_eq_zero_iff {bits : List α} :
    bitsVal value bits = 0 ↔ ∀ bit ∈ bits, value bit = false := by
  induction bits with
  | nil => simp
  | cons bit bits ih => simp [ih]

theorem toNat_add_two_mul_inj {b b' : Bool} {n n' : Nat} :
    b.toNat + 2 * n = b'.toNat + 2 * n' ↔ b = b' ∧ n = n' := by
  cases b <;> cases b' <;> simp <;> omega

theorem toNat_testBit_zero (k : Nat) : (k.testBit 0).toNat = k % 2 := by
  rw [testBit_zero]
  rcases mod_two_eq_zero_or_one k with even | odd
  · simp [even]
  · simp [odd]

theorem toNat_add_two_mul_eq {b : Bool} {n k : Nat} :
    b.toNat + 2 * n = k ↔ b = k.testBit 0 ∧ n = k / 2 := by
  -- A number is its lowest digit and twice its half.
  have split : (k.testBit 0).toNat + 2 * (k / 2) = k := by
    rw [toNat_testBit_zero]
    exact mod_add_div k 2
  conv_lhs => rw [← split]
  exact toNat_add_two_mul_inj

theorem toNat_add_two_mul_mod (b : Bool) (n k : Nat) :
    (b.toNat + 2 * n) % 2 ^ (k + 1) = b.toNat + 2 * (n % 2 ^ k) := by
  -- The quotient by two drops the lowest bit.
  have small := Bool.toNat_lt b
  rw [pow_succ', mod_mul, add_mul_mod_self_left, mod_eq_of_lt small,
    add_mul_div_left _ _ two_pos, div_eq_of_lt small, zero_add]

theorem bitsVal_cons_inj {bit : α} {bits : List α} {bit₂ : β} {bits₂ : List β} :
    bitsVal value (bit :: bits) = bitsVal value₂ (bit₂ :: bits₂) ↔
      value bit = value₂ bit₂ ∧ bitsVal value bits = bitsVal value₂ bits₂ := by
  rw [bitsVal_cons, bitsVal_cons, toNat_add_two_mul_inj]

theorem bitsVal_cons_eq_mod {bit : α} {bits : List α} {n k : Nat} :
    bitsVal value (bit :: bits) = n % 2 ^ (k + 1) ↔
      value bit = n.testBit 0 ∧ bitsVal value bits = n / 2 % 2 ^ k := by
  rw [bitsVal_cons, pow_succ', mod_mul, ← toNat_testBit_zero, toNat_add_two_mul_inj]

theorem testBit_bitsVal {bits : List α} (i : Nat) (within : i < bits.length) :
    (bitsVal value bits).testBit i = value bits[i] := by
  induction bits generalizing i with
  | nil => simp at within
  | cons bit bits ih =>
    -- The lowest digit is the first bit, and halving moves to the next one.
    obtain ⟨low, high⟩ := toNat_add_two_mul_eq.mp (@bitsVal_cons _ value bit bits).symm
    cases i with
    | zero => rw [← low, List.getElem_cons_zero]
    | succ i =>
      rw [testBit_succ, ← high, List.getElem_cons_succ]
      exact ih i (by simpa using within)

theorem fullAdder_count (a b c : Bool) :
    ((a ^^ b) ^^ c).toNat + 2 * ((a && b) || (c && (a ^^ b))).toNat =
      a.toNat + b.toNat + c.toNat := by
  cases a <;> cases b <;> cases c <;> rfl

namespace Netlist

def newVars : Nat → Build (List Nat)
  | 0 => return []
  | count + 1 => do
    let var ← newVar
    let vars ← newVars count
    return var :: vars

variable {aimed : Prop} {known : Assignment → Prop} {s s' : Stage aimed known}

def Stage.Has (s : Stage aimed known) (vars : List Nat) : Prop := ∀ var ∈ vars, var < s.list.next

theorem Stage.Has.later {vars : List Nat} (has : s.Has vars) (step : Extends s s') : s'.Has vars :=
  fun var mem => step.lt (has var mem)

theorem Stage.has_nil : s.Has [] := fun _ mem => nomatch mem

theorem Stage.has_cons {var : Nat} {vars : List Nat} :
    s.Has (var :: vars) ↔ var < s.list.next ∧ s.Has vars := List.forall_mem_cons

theorem Stage.Has.local_bitsVal {vars : List Nat} (has : s.Has vars) :
    Local s.list.next fun m => bitsVal m vars :=
  fun _ _ agree => bitsVal_congr fun var mem => agree var (has var mem)

theorem newVars_builds (width : Nat) (wanted : Assignment → Nat)
    (isLocal : Local s.list.next wanted) :
    Builds s (newVars width) fun vars s' =>
      vars.length = width ∧ s'.Has vars ∧
        s'.Aims fun m => bitsVal m vars = wanted m % 2 ^ width := by
  induction width generalizing s wanted with
  | zero => exact .ret ⟨rfl, Stage.has_nil, fun _ m _ => by simp [mod_one]⟩
  | succ width ih =>
    -- The first variable takes the lowest digit and the others the half of the number.
    have lowest : Local s.list.next fun m => (wanted m).testBit 0 := by
      intro m m' agree
      simp only [isLocal agree]
    refine (newVar_builds _ lowest).bind fun var s' step ⟨_, within, aim⟩ => ?_
    have half : Local s'.list.next fun m => wanted m / 2 := by
      intro m m' agree
      simp only [isLocal (agree.mono step.next_le)]
    refine (ih _ half).bind fun vars s'' step' ⟨length, has, aim'⟩ => ?_
    refine .ret ⟨by simp [length], Stage.has_cons.mpr ⟨step'.lt within, has⟩, fun h m live => ?_⟩
    have low : m var = (wanted m).testBit 0 := aim.later step' h m live
    have high : bitsVal m vars = wanted m / 2 % 2 ^ width := aim' h m live
    show bitsVal m (var :: vars) = wanted m % 2 ^ (width + 1)
    rw [bitsVal_cons, low, high, toNat_testBit_zero, pow_succ', mod_mul]

theorem defineWord_then {width : Nat} {emit : List Nat → Build Unit} {rest : List Nat → Build β}
    {goal : β → Stage aimed known → Prop} {wanted : Assignment → Nat}
    (isLocal : Local s.list.next wanted) (small : ∀ m, wanted m < 2 ^ width)
    (emits : ∀ vars (s' : Stage aimed known), Extends s s' → vars.length = width → s'.Has vars →
      Asserts s' (emit vars) fun m => bitsVal m vars = wanted m)
    (builds : ∀ vars (s' : Stage aimed known), Extends s s' → vars.length = width →
      s'.Has vars → (s'.Entails fun m => bitsVal m vars = wanted m) → Builds s' (rest vars) goal) :
    Builds s (do let vars ← newVars width; emit vars; rest vars) goal := by
  refine (newVars_builds width wanted isLocal).bind fun vars s' step ⟨length, has, aim⟩ => ?_
  refine (emits vars s' step length has fun h m live => ?_).bind fun _ s'' step' holds => ?_
  · -- The number that is wanted fits into the word.
    have want := aim h m live
    dsimp only at want ⊢
    rw [want, mod_eq_of_lt (small m)]
  · exact builds vars s'' (step.trans step') length (has.later step') holds

/-- Take fresh variables for two words, alternating between them. -/
def newVarPairs : Nat → Build (List Nat × List Nat)
  | 0 => return ([], [])
  | count + 1 => do
    let fst ← newVar
    let snd ← newVar
    let (fsts, snds) ← newVarPairs count
    return (fst :: fsts, snd :: snds)

theorem newVarPairs_builds (width : Nat) (wanted wanted' : Assignment → Nat)
    (isLocal : Local s.list.next wanted) (isLocal' : Local s.list.next wanted') :
    Builds s (newVarPairs width) fun vars s' =>
      vars.1.length = width ∧ vars.2.length = width ∧ s'.Has vars.1 ∧ s'.Has vars.2 ∧
        s'.Aims fun m =>
          bitsVal m vars.1 = wanted m % 2 ^ width ∧ bitsVal m vars.2 = wanted' m % 2 ^ width := by
  induction width generalizing s wanted wanted' with
  | zero =>
    exact .ret ⟨rfl, rfl, Stage.has_nil, Stage.has_nil, fun _ m _ => by simp [mod_one]⟩
  | succ width ih =>
    -- Each number gives its lowest digit and its half.
    have lowest : Local s.list.next fun m => (wanted m).testBit 0 := by
      intro m m' agree
      simp only [isLocal agree]
    refine (newVar_builds _ lowest).bind fun var s₁ step₁ ⟨_, within, aim⟩ => ?_
    have lowest' : Local s₁.list.next fun m => (wanted' m).testBit 0 := by
      intro m m' agree
      simp only [isLocal' (agree.mono step₁.next_le)]
    refine (newVar_builds _ lowest').bind fun var' s₂ step₂ ⟨_, within', aim'⟩ => ?_
    have le := (step₁.trans step₂).next_le
    have half : Local s₂.list.next fun m => wanted m / 2 := by
      intro m m' agree
      simp only [isLocal (agree.mono le)]
    have half' : Local s₂.list.next fun m => wanted' m / 2 := by
      intro m m' agree
      simp only [isLocal' (agree.mono le)]
    refine (ih _ _ half half').bind fun vars s₃ step₃ ⟨length, length', has, has', aims⟩ => ?_
    refine .ret ⟨by simp [length], by simp [length'],
      Stage.has_cons.mpr ⟨step₃.lt (step₂.lt within), has⟩,
      Stage.has_cons.mpr ⟨step₃.lt within', has'⟩, fun h m live => ?_⟩
    have low : m var = (wanted m).testBit 0 := aim.later (step₂.trans step₃) h m live
    have low' : m var' = (wanted' m).testBit 0 := aim'.later step₃ h m live
    obtain ⟨high, high'⟩ := aims h m live
    show bitsVal m (var :: vars.1) = wanted m % 2 ^ (width + 1) ∧
      bitsVal m (var' :: vars.2) = wanted' m % 2 ^ (width + 1)
    rw [bitsVal_cons, bitsVal_cons, low, low', high, high', toNat_testBit_zero,
      toNat_testBit_zero, pow_succ', mod_mul, mod_mul]
    exact ⟨rfl, rfl⟩

end Netlist

end Nixie
