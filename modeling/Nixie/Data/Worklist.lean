import Mathlib.Algebra.Order.BigOperators.Group.List
import Mathlib.Data.ENat.Basic
import Mathlib.Data.List.AList
import Mathlib.Tactic.Ring

/-! Stacks of pending steps that are worked off, and expansions that remember their results. -/

namespace Nixie

open Option

section

variable {σ τ : Type*} (step : σ → τ → Option (List τ × σ))

/-- Take the first step of the stack until none is left; a step may leave more, or fail. -/
def workOff : Nat → List τ → σ → Option σ
  | _, [], s => some s
  | 0, _ :: _, _ => none
  | fuel + 1, item :: work, s => match step s item with
    | some (more, s) => workOff fuel (more ++ work) s
    | none => none

/-- Some steps lead from one state to another, and are worked off within a number of turns. -/
def Settles (turns : Nat) (work : List τ) (s s' : σ) : Prop :=
  ∀ fuel rest, workOff step (turns + fuel) (work ++ rest) s = workOff step fuel rest s'

variable {step}

theorem Settles.nil (s : σ) : Settles step 0 [] s s := by
  intro fuel rest
  rw [Nat.zero_add, List.nil_append]

theorem Settles.cons {turns : Nat} {item : τ} {more : List τ} {s s' s'' : σ}
    (taken : step s item = some (more, s')) (settles : Settles step turns more s' s'') :
    Settles step (turns + 1) [item] s s'' := by
  intro fuel rest
  rw [Nat.add_right_comm, List.singleton_append, workOff, taken]
  exact settles fuel rest

theorem Settles.append {first second : Nat} {work work' : List τ} {s s' s'' : σ}
    (left : Settles step first work s s') (right : Settles step second work' s' s'') :
    Settles step (first + second) (work ++ work') s s'' := by
  intro fuel rest
  rw [Nat.add_assoc, List.append_assoc, left, right]

theorem Settles.workOff_eq {turns fuel : Nat} {work : List τ} {s s' : σ}
    (settles : Settles step turns work s s') (enough : turns ≤ fuel) :
    workOff step fuel work s = some s' := by
  -- The turns that are left over have nothing to do.
  have done := settles (fuel - turns) []
  rw [Nat.add_sub_cancel' enough, List.append_nil] at done
  rw [done]
  cases fuel - turns <;> rfl

end

/-- What it takes to compute results for keys from those of two smaller keys each. -/
structure Expansion (σ κ ν ρ : Type*) where
  /-- The result for a key where it is known; looking it up may change the state. -/
  resolved : σ → κ → Option (Option ρ × σ)
  /-- The two parts of a key, with a label. -/
  parts : σ → κ → Option (ν × κ × κ)
  /-- Whether a result is stored for a key. -/
  stored : σ → κ → Bool
  /-- Store the result for a key, made from those of its parts. -/
  store : σ → κ → ν → ρ → ρ → σ
  /-- Whether a key is skipped if a result of its parts is missing; otherwise this is a failure. -/
  skips : Bool

inductive ExpansionStep (κ ν : Type*) where
  | enter (key : κ)
  | combine (key : κ) (label : ν) (low high : κ)

namespace Expansion

variable {σ κ ν ρ : Type*} (E : Expansion σ κ ν ρ)

def step (s : σ) : ExpansionStep κ ν → Option (List (ExpansionStep κ ν) × σ)
  | .enter key => match E.resolved s key with
    | none => none
    | some (some _, s) => some ([], s)
    | some (none, s) => match E.parts s key with
      | none => none
      -- What is pushed last is worked off first.
      | some (label, low, high) => some ([.enter high, .enter low, .combine key label low high], s)
  | .combine key label low high =>
    if E.stored s key then some ([], s)
    else match E.resolved s low with
      | none => none
      | some (lowId, s) => match E.resolved s high with
        | none => none
        | some (highId, s) => match lowId, highId with
          | some lowId, some highId => some ([], E.store s key label lowId highId)
          | _, _ => if E.skips then some ([], s) else none

/-- The result for a key, within a number of turns. -/
def run (fuel : Nat) (s : σ) (key : κ) : Option (ρ × σ) :=
  match E.resolved s key with
  | none => none
  | some (some result, s) => some (result, s)
  | some (none, s) => match workOff E.step fuel [.enter key] s with
    | none => none
    | some s => match E.resolved s key with
      | some (some result, s) => some (result, s)
      | _ => none

/--
What is known about the states and the results.

Later states know all that earlier ones knew, and good results stay good.
-/
structure Lawful (Inv : σ → Prop) (Valid : σ → κ → Prop) (Good : σ → κ → ρ → Prop)
    (later : σ → σ → Prop) (size : κ → Nat) : Prop where
  refl : ∀ s, later s s
  trans : ∀ {s s' s''}, later s s' → later s' s'' → later s s''
  valid : ∀ {s s' key}, later s s' → Valid s key → Valid s' key
  good : ∀ {s s' key result}, Inv s → later s s' → Valid s key → Good s key result →
    Good s' key result
  resolved : ∀ {s key}, Inv s → Valid s key → ∃ result s', E.resolved s key = some (result, s') ∧
    Inv s' ∧ later s s' ∧ (∀ r, result = some r → Good s' key r) ∧ (result = none → s' = s)
  -- What is known stays known.
  keeps : ∀ {s s' key r t}, Inv s → Inv s' → later s s' → Valid s key →
    E.resolved s key = some (some r, t) → ∃ r' t', E.resolved s' key = some (some r', t')
  parts : ∀ {s key}, Inv s → Valid s key → E.resolved s key = some (none, s) →
    ∃ label low high, E.parts s key = some (label, low, high) ∧
      Valid s low ∧ Valid s high ∧ size low < size key ∧ size high < size key
  stored : ∀ {s key}, Inv s → Valid s key → E.stored s key = true →
    ∃ r t, E.resolved s key = some (some r, t)
  store : ∀ {s s' key label low high lowId highId}, Inv s → Valid s key →
    E.resolved s key = some (none, s) → E.parts s key = some (label, low, high) →
    Inv s' → later s s' → Good s' low lowId → Good s' high highId →
      Inv (E.store s' key label lowId highId) ∧ later s' (E.store s' key label lowId highId) ∧
        ∃ r t, E.resolved (E.store s' key label lowId highId) key = some (some r, t)

variable {E} {Inv : σ → Prop} {Valid : σ → κ → Prop} {Good : σ → κ → ρ → Prop}
  {later : σ → σ → Prop} {size : κ → Nat}

theorem Lawful.settles (lawful : E.Lawful Inv Valid Good later size) {s : σ} (inv : Inv s)
    {key : κ} (valid : Valid s key) : ∃ turns s', turns ≤ 4 ^ (size key + 1) ∧
      Settles E.step turns [.enter key] s s' ∧ Inv s' ∧ later s s' ∧
        ∃ r t, E.resolved s' key = some (some r, t) := by
  -- The parts of a key are smaller, so the induction is on its size.
  induction bound : size key using Nat.strong_induction_on generalizing s key with
  | _ n ih =>
    obtain ⟨result, s₁, found, inv₁, later₁, -, same⟩ := lawful.resolved inv valid
    cases result with
    | some r =>
      refine ⟨1, s₁, Nat.one_le_pow _ _ (by omega), .cons ?_ (.nil s₁), inv₁, later₁,
        lawful.keeps inv inv₁ later₁ valid found⟩
      rw [step, found]
    | none =>
      obtain rfl := same rfl
      obtain ⟨label, low, high, split, validLow, validHigh, lessLow, lessHigh⟩ :=
        lawful.parts inv valid found
      obtain ⟨turns₂, s₂, bound₂, settles₂, inv₂, later₂, r₂, t₂, known₂⟩ :=
        ih (size high) (bound ▸ lessHigh) inv validHigh rfl
      obtain ⟨turns₃, s₃, bound₃, settles₃, inv₃, later₃, r₃, t₃, known₃⟩ :=
        ih (size low) (bound ▸ lessLow) inv₂ (lawful.valid later₂ validLow) rfl
      have laterAll := lawful.trans later₂ later₃
      have valid₃ := lawful.valid laterAll valid
      -- The last step is taken in a state where both parts are known.
      have last : ∃ s', E.step s₃ (.combine key label low high) = some ([], s') ∧ Inv s' ∧
          later s₃ s' ∧ ∃ r t, E.resolved s' key = some (some r, t) := by
        rw [step]
        split
        · rename_i known
          exact ⟨s₃, rfl, inv₃, lawful.refl s₃, lawful.stored inv₃ valid₃ known⟩
        · rename_i unknown
          have validLow₃ := lawful.valid laterAll validLow
          obtain ⟨low', s₄, foundLow, inv₄, later₄, goodLow, -⟩ := lawful.resolved inv₃ validLow₃
          obtain ⟨lowId, rfl⟩ : ∃ lowId, low' = some lowId := by
            rw [known₃] at foundLow
            exact ⟨r₃, (Prod.mk.inj (some.inj foundLow)).1.symm⟩
          have validHigh₄ := lawful.valid (lawful.trans laterAll later₄) validHigh
          obtain ⟨r', t', knownHigh⟩ := lawful.keeps inv₂ inv₄ (lawful.trans later₃ later₄)
            (lawful.valid later₂ validHigh) known₂
          obtain ⟨high', s₅, foundHigh, inv₅, later₅, goodHigh, -⟩ :=
            lawful.resolved inv₄ validHigh₄
          obtain ⟨highId, rfl⟩ : ∃ highId, high' = some highId := by
            rw [knownHigh] at foundHigh
            exact ⟨r', (Prod.mk.inj (some.inj foundHigh)).1.symm⟩
          rw [foundLow]
          simp only
          rw [foundHigh]
          simp only
          have laterLast := lawful.trans (lawful.trans laterAll later₄) later₅
          obtain ⟨inv₆, later₆, known₆⟩ := lawful.store inv valid found split inv₅ laterLast
            (lawful.good inv₄ later₅ (lawful.valid later₄ validLow₃) (goodLow lowId rfl))
            (goodHigh highId rfl)
          exact ⟨_, rfl, inv₆, lawful.trans (lawful.trans later₄ later₅) later₆, known₆⟩
      obtain ⟨s', taken, inv', later', known'⟩ := last
      refine ⟨turns₂ + (turns₃ + (0 + 1)) + 1, s', ?_, .cons ?_
        (settles₂.append (settles₃.append (.cons taken (.nil s')))), inv',
        lawful.trans laterAll later', known'⟩
      · -- Both parts together take at most half of the turns that are allowed for the key.
        have smaller : 4 ^ (size high + 1) ≤ 4 ^ n := Nat.pow_le_pow_right (by decide) (by omega)
        have smaller' : 4 ^ (size low + 1) ≤ 4 ^ n := Nat.pow_le_pow_right (by decide) (by omega)
        have pos : 1 ≤ 4 ^ n := Nat.one_le_pow _ _ (by decide)
        rw [pow_succ]
        omega
      · rw [step, found]
        simp only
        rw [split]
        rfl

theorem Lawful.run_spec (lawful : E.Lawful Inv Valid Good later size) {s : σ} (inv : Inv s)
    (key : κ) (valid : Valid s key) {fuel : Nat} (enough : 4 ^ (size key + 1) ≤ fuel) :
    ∃ result s', E.run fuel s key = some (result, s') ∧ Inv s' ∧ later s s' ∧
      Good s' key result := by
  obtain ⟨found, s₁, eq, inv₁, later₁, good₁, same⟩ := lawful.resolved inv valid
  cases found with
  | some r => exact ⟨r, s₁, by rw [run, eq], inv₁, later₁, good₁ r rfl⟩
  | none =>
    obtain rfl := same rfl
    obtain ⟨turns, s₂, bound, settles, inv₂, later₂, r, t, known⟩ := lawful.settles inv valid
    obtain ⟨found', s₃, eq', inv₃, later₃, good₃, -⟩ :=
      lawful.resolved inv₂ (lawful.valid later₂ valid)
    have both : found' = some r ∧ s₃ = t := by
      rw [known] at eq'
      exact ⟨(Prod.mk.inj (some.inj eq')).1.symm, (Prod.mk.inj (some.inj eq')).2.symm⟩
    refine ⟨r, s₃, ?_, inv₃, lawful.trans later₂ later₃, good₃ r both.1⟩
    rw [run, eq]
    simp only
    rw [settles.workOff_eq (bound.trans enough)]
    simp only
    rw [known, both.2]

end Expansion

end Nixie
