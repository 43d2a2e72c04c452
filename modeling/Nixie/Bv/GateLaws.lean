import Nixie.Bv.Gates

/-! Every gate returns a bit with the value that it is meant to have. -/

namespace Nixie.Bv

open Netlist

variable {aimed : Prop} {known : Assignment → Prop} {s s' : Stage aimed known}
  {k : ConstBits} {x y z : Sig} {f g h : Assignment → Bool}

/-- The bit is a constant or a variable below the bound. -/
def Sig.Below (bound : Nat) : Sig → Prop
  | .true | .false => True
  | .var v => v < bound

theorem below_true (bound : Nat) : Sig.Below bound .true := True.intro

theorem below_false (bound : Nat) : Sig.Below bound .false := True.intro

theorem Sig.Below.mono {small large : Nat} (below : z.Below small) (le : small ≤ large) :
    z.Below large := by
  cases z with
  | true | false => trivial
  | var v => exact Nat.lt_of_lt_of_le below le

/-- In every counted assignment the bit has the value of the function. -/
structure Means (s : Stage aimed known) (z : Sig) (f : Assignment → Bool) : Prop where
  below : z.Below s.list.next
  value : ∀ m, s.Live m → z.value m = f m

namespace Means

theorem later (means : Means s z f) (step : Extends s s') : Means s' z f where
  below := means.below.mono step.next_le
  value := fun m live => means.value m (step.narrows m live)

theorem congr (means : Means s z f) (same : ∀ m, s.Live m → f m = g m) : Means s z g where
  below := means.below
  value := fun m live => (means.value m live).trans (same m live)

theorem self (below : z.Below s.list.next) : Means s z fun m => z.value m where
  below := below
  value := fun _ _ => rfl

theorem isTrue (holds : ∀ m, s.Live m → f m = true) : Means s .true f where
  below := trivial
  value := fun m live => (holds m live).symm

theorem isFalse (fails : ∀ m, s.Live m → f m = false) : Means s .false f where
  below := trivial
  value := fun m live => (fails m live).symm

end Means

/-- The reserved variables were handed out and have their values. -/
structure Hosts (k : ConstBits) (s : Stage aimed known) : Prop where
  true_lt : k.constTrue < s.list.next
  false_lt : k.constFalse < s.list.next
  pinned : s.Entails k.Pinned

theorem Hosts.later (hosts : Hosts k s) (step : Extends s s') : Hosts k s' where
  true_lt := step.lt hosts.true_lt
  false_lt := step.lt hosts.false_lt
  pinned := hosts.pinned.later step

namespace Circuit

variable {v a b out sel ifTrue ifFalse guard : Nat}

theorem sig_value {m : Assignment} (pinned : k.Pinned m) (v : Nat) : (sig k v).value m = m v := by
  -- The two reserved variables have the values of the constants.
  unfold sig
  split
  · next same => rw [same, pinned.1, Sig.value_true]
  · split
    · next same => rw [same, pinned.2, Sig.value_false]
    · rfl

theorem sig_below {bound : Nat} (within : v < bound) : (sig k v).Below bound := by
  unfold sig
  split
  · trivial
  · split
    · trivial
    · exact within

theorem sig_var {w : Nat} (same : sig k v = .var w) : v = w := by
  unfold sig at same
  split at same
  · cases same
  · split at same
    · cases same
    · exact Sig.var.inj same

theorem sig_means (hosts : Hosts k s) (within : v < s.list.next) :
    Means s (sig k v) fun m => m v where
  below := sig_below within
  value := fun m live => sig_value (hosts.pinned m live) v

theorem sigVar_value {m : Assignment} (pinned : k.Pinned m) (z : Sig) :
    m (sigVar k z) = z.value m := by
  cases z with
  | true => exact pinned.1
  | false => exact pinned.2
  | var v => rfl

theorem sigVar_lt (hosts : Hosts k s) (below : z.Below s.list.next) : sigVar k z < s.list.next := by
  cases z with
  | true => exact hosts.true_lt
  | false => exact hosts.false_lt
  | var v => exact below

theorem emitBitEq_asserts (ha : a < s.list.next) (hb : b < s.list.next) :
    Asserts s (emitBitEq a b) fun m => m a = m b := by
  change Asserts s (List.forM [[.neg a, .pos b], [.pos a, .neg b]] addClause) _
  refine (Asserts.clauses ?_).congr fun m _ => ?_
  · simp [VarsBelow, ha, hb]
  · simp [Models, Satisfies]
    cases m a <;> cases m b <;> simp

theorem emitNot_asserts (hout : out < s.list.next) (ha : a < s.list.next) :
    Asserts s (emitNot out a) fun m => m out = !m a := by
  change Asserts s (List.forM [[.pos out, .pos a], [.neg out, .neg a]] addClause) _
  refine (Asserts.clauses ?_).congr fun m _ => ?_
  · simp [VarsBelow, hout, ha]
  · simp [Models, Satisfies]
    cases m out <;> cases m a <;> simp

theorem emitAnd_asserts (hout : out < s.list.next) (ha : a < s.list.next) (hb : b < s.list.next) :
    Asserts s (emitAnd out a b) fun m => m out = (m a && m b) := by
  change Asserts s (List.forM [[.neg out, .pos a], [.neg out, .pos b],
    [.pos out, .neg a, .neg b]] addClause) _
  refine (Asserts.clauses ?_).congr fun m _ => ?_
  · simp [VarsBelow, hout, ha, hb]
  · simp [Models, Satisfies]
    cases m out <;> cases m a <;> cases m b <;> simp

theorem emitOr_asserts (hout : out < s.list.next) (ha : a < s.list.next) (hb : b < s.list.next) :
    Asserts s (emitOr out a b) fun m => m out = (m a || m b) := by
  change Asserts s (List.forM [[.neg out, .pos a, .pos b], [.pos out, .neg a],
    [.pos out, .neg b]] addClause) _
  refine (Asserts.clauses ?_).congr fun m _ => ?_
  · simp [VarsBelow, hout, ha, hb]
  · simp [Models, Satisfies]
    cases m out <;> cases m a <;> cases m b <;> simp

theorem emitXor_asserts (hout : out < s.list.next) (ha : a < s.list.next) (hb : b < s.list.next) :
    Asserts s (emitXor out a b) fun m => m out = (m a ^^ m b) := by
  change Asserts s (List.forM [[.neg out, .neg a, .neg b], [.neg out, .pos a, .pos b],
    [.pos out, .neg a, .pos b], [.pos out, .pos a, .neg b]] addClause) _
  refine (Asserts.clauses ?_).congr fun m _ => ?_
  · simp [VarsBelow, hout, ha, hb]
  · simp [Models, Satisfies]
    cases m out <;> cases m a <;> cases m b <;> simp

theorem emitAndNotA_asserts (hout : out < s.list.next) (ha : a < s.list.next)
    (hb : b < s.list.next) :
    Asserts s (emitAndNotA out a b) fun m => m out = (!m a && m b) := by
  change Asserts s (List.forM [[.neg out, .neg a], [.neg out, .pos b],
    [.pos out, .pos a, .neg b]] addClause) _
  refine (Asserts.clauses ?_).congr fun m _ => ?_
  · simp [VarsBelow, hout, ha, hb]
  · simp [Models, Satisfies]
    cases m out <;> cases m a <;> cases m b <;> simp

theorem emitMux_asserts (hout : out < s.list.next) (hsel : sel < s.list.next)
    (ha : a < s.list.next) (hb : b < s.list.next) :
    Asserts s (emitMux out sel a b) fun m => m out = bif m sel then m a else m b := by
  change Asserts s (List.forM [[.neg sel, .neg a, .pos out], [.neg sel, .pos a, .neg out],
    [.pos sel, .neg b, .pos out], [.pos sel, .pos b, .neg out]] addClause) _
  refine (Asserts.clauses ?_).congr fun m _ => ?_
  · simp [VarsBelow, hout, hsel, ha, hb]
  · simp [Models, Satisfies]
    cases m out <;> cases m sel <;> cases m a <;> cases m b <;> simp

theorem fresh_builds {emit : Nat → Build Unit} (isLocal : Local s.list.next f)
    (emits : ∀ out (s' : Stage aimed known), Extends s s' → out < s'.list.next →
      Asserts s' (emit out) fun m => m out = f m) :
    Builds s (do let out ← newVar; emit out; return Sig.var out) fun z s' => Means s' z f := by
  refine (define_builds Sig.var isLocal emits).imp fun z s' _ holds => ?_
  obtain ⟨out, rfl, within, value⟩ := holds
  exact ⟨within, value⟩

theorem gateNot_builds (hx : Means s x f) :
    Builds s (gateNot x) fun z s' => Means s' z fun m => !f m := by
  cases x with
  | true => exact .ret (.isFalse fun m live => by simp [← hx.value m live])
  | false => exact .ret (.isTrue fun m live => by simp [← hx.value m live])
  | var v =>
    -- The gate negates the variable, and the variable means the function.
    have isLocal : Local s.list.next fun m => !m v := by
      intro m m' agree
      simp only [agree v hx.below]
    refine (fresh_builds isLocal fun out s' step within =>
      emitNot_asserts within (step.lt hx.below)).imp fun z s' step means => ?_
    exact means.congr fun m live => by rw [← hx.value m (step.narrows m live), Sig.value_var]

theorem binary_builds {emit : Nat → Build Unit} {op : Bool → Bool → Bool}
    (ha : Means s (.var a) f) (hb : Means s (.var b) g)
    (emits : ∀ out (s' : Stage aimed known), out < s'.list.next → a < s'.list.next → b < s'.list.next →
      Asserts s' (emit out) fun m => m out = op (m a) (m b)) :
    Builds s (do let out ← newVar; emit out; return Sig.var out) fun z s' =>
      Means s' z fun m => op (f m) (g m) := by
  have isLocal : Local s.list.next fun m => op (m a) (m b) := by
    intro m m' agree
    simp only [agree a ha.below, agree b hb.below]
  refine (fresh_builds isLocal fun out s' step within =>
    emits out s' within (step.lt ha.below) (step.lt hb.below)).imp fun z s' step means => ?_
  -- Both variables mean their functions.
  refine means.congr fun m live => ?_
  rw [← ha.value m (step.narrows m live), ← hb.value m (step.narrows m live)]
  rfl

theorem gateAnd_builds (hx : Means s x f) (hy : Means s y g) :
    Builds s (gateAnd x y) fun z s' => Means s' z fun m => f m && g m := by
  cases x with
  | false => exact .ret (.isFalse fun m live => by simp [← hx.value m live])
  | true =>
    -- The other bit decides.
    cases y <;> exact .ret (hy.congr fun m live => by simp [← hx.value m live])
  | var a =>
    cases y with
    | false => exact .ret (.isFalse fun m live => by simp [← hy.value m live])
    | true => exact .ret (hx.congr fun m live => by simp [← hy.value m live])
    | var b =>
      simp only [gateAnd]
      split
      · next same =>
        -- One signal twice is that signal.
        subst same
        refine .ret (hx.congr fun m live => ?_)
        rw [← hx.value m live, ← hy.value m live, Bool.and_self]
      · exact binary_builds hx hy fun out s' => emitAnd_asserts

theorem gateOr_builds (hx : Means s x f) (hy : Means s y g) :
    Builds s (gateOr x y) fun z s' => Means s' z fun m => f m || g m := by
  cases x with
  | true => exact .ret (.isTrue fun m live => by simp [← hx.value m live])
  | false =>
    -- The other bit decides.
    cases y <;> exact .ret (hy.congr fun m live => by simp [← hx.value m live])
  | var a =>
    cases y with
    | true => exact .ret (.isTrue fun m live => by simp [← hy.value m live])
    | false => exact .ret (hx.congr fun m live => by simp [← hy.value m live])
    | var b =>
      simp only [gateOr]
      split
      · next same =>
        -- One signal twice is that signal.
        subst same
        refine .ret (hx.congr fun m live => ?_)
        rw [← hx.value m live, ← hy.value m live, Bool.or_self]
      · exact binary_builds hx hy fun out s' => emitOr_asserts

theorem gateXor_builds (hx : Means s x f) (hy : Means s y g) :
    Builds s (gateXor x y) fun z s' => Means s' z fun m => f m ^^ g m := by
  cases x with
  | false => exact .ret (hy.congr fun m live => by simp [← hx.value m live])
  | true =>
    -- A difference from true is a negation.
    have negated := gateNot_builds hy
    cases y with
    | false => exact .ret (.isTrue fun m live => by simp [← hx.value m live, ← hy.value m live])
    | true | var b =>
      refine negated.imp fun z s' step means => means.congr fun m live => ?_
      simp [← hx.value m (step.narrows m live)]
  | var a =>
    cases y with
    | false => exact .ret (hx.congr fun m live => by simp [← hy.value m live])
    | true =>
      refine (gateNot_builds hx).imp fun z s' step means => means.congr fun m live => ?_
      simp [← hy.value m (step.narrows m live)]
    | var b =>
      simp only [gateXor]
      split
      · next same =>
        -- One signal twice cancels.
        subst same
        refine .ret (.isFalse fun m live => ?_)
        rw [← hx.value m live, ← hy.value m live, Bool.xor_self]
      · exact binary_builds hx hy fun out s' => emitXor_asserts

theorem gateXnor_builds (hx : Means s x f) (hy : Means s y g) :
    Builds s (gateXnor x y) fun z s' => Means s' z fun m => f m == g m := by
  refine (gateXor_builds hx hy).bind fun x' s' step means => ?_
  refine (gateNot_builds means).imp fun z s'' step' means' => means'.congr fun m _ => ?_
  cases f m <;> cases g m <;> rfl

theorem gateAndNotA_builds (hx : Means s x f) (hy : Means s y g) :
    Builds s (gateAndNotA x y) fun z s' => Means s' z fun m => !f m && g m := by
  cases x with
  | true => exact .ret (.isFalse fun m live => by simp [← hx.value m live])
  | false =>
    -- The other bit decides.
    cases y <;> exact .ret (hy.congr fun m live => by simp [← hx.value m live])
  | var a =>
    cases y with
    | false => exact .ret (.isFalse fun m live => by simp [← hy.value m live])
    | true =>
      refine (gateNot_builds hx).imp fun z s' step means => means.congr fun m live => ?_
      simp [← hy.value m (step.narrows m live)]
    | var b =>
      simp only [gateAndNotA]
      split
      · next same =>
        -- A signal and its negation exclude each other.
        subst same
        refine .ret (.isFalse fun m live => ?_)
        rw [← hx.value m live, ← hy.value m live, Bool.not_and_self]
      · exact @binary_builds _ _ _ _ _ _ _ _ (fun p q => !p && q) hx hy
          fun out s' => emitAndNotA_asserts

theorem gateMux_builds (hosts : Hosts k s) (hx : Means s x f) (hy : Means s y g)
    (hz : Means s z h) :
    Builds s (gateMux k x y z) fun r s' => Means s' r fun m => bif f m then g m else h m := by
  cases x with
  | true => exact .ret (hy.congr fun m live => by simp [← hx.value m live])
  | false => exact .ret (hz.congr fun m live => by simp [← hx.value m live])
  | var sel =>
    unfold gateMux
    dsimp only
    split
    · next same =>
      -- Both branches are one bit.
      subst same
      refine .ret (hy.congr fun m live => ?_)
      rw [← hy.value m live, ← hz.value m live, Bool.cond_self]
    · split
      · -- The selector itself.
        refine .ret (hx.congr fun m live => ?_)
        simp [← hy.value m live, ← hz.value m live]
      · refine (gateNot_builds hx).imp fun r s' step means => means.congr fun m live => ?_
        simp [← hy.value m (step.narrows m live), ← hz.value m (step.narrows m live)]
      · -- Constant branches go through the reserved variables.
        have isLocal : Local s.list.next fun m =>
            bif m sel then m (sigVar k y) else m (sigVar k z) := by
          intro m m' agree
          simp only [agree sel hx.below, agree _ (sigVar_lt hosts hy.below),
            agree _ (sigVar_lt hosts hz.below)]
        refine (fresh_builds isLocal fun out s' step within =>
          emitMux_asserts within (step.lt hx.below) (step.lt (sigVar_lt hosts hy.below))
            (step.lt (sigVar_lt hosts hz.below))).imp fun r s' step means => ?_
        refine means.congr fun m live => ?_
        have before := step.narrows m live
        have pinned := hosts.pinned m before
        rw [sigVar_value pinned, sigVar_value pinned, ← hx.value m before, hy.value m before,
          hz.value m before, Sig.value_var]

theorem gateFullAdder_builds (hx : Means s x f) (hy : Means s y g) (hz : Means s z h) :
    Builds s (gateFullAdder x y z) fun r s' =>
      Means s' r.1 (fun m => (f m ^^ g m) ^^ h m) ∧
        Means s' r.2 fun m => (f m && g m) || (h m && (f m ^^ g m)) := by
  refine (gateXor_builds hx hy).bind fun axb s₁ step₁ haxb => ?_
  refine (gateXor_builds haxb (hz.later step₁)).bind fun sum s₂ step₂ hsum => ?_
  have upTo := step₁.trans step₂
  refine (gateAnd_builds (hx.later upTo) (hy.later upTo)).bind fun aab s₃ step₃ haab => ?_
  have both := step₂.trans step₃
  refine (gateAnd_builds ((hz.later step₁).later both) (haxb.later both)).bind
    fun caxb s₄ step₄ hcaxb => ?_
  refine (gateOr_builds (haab.later step₄) hcaxb).bind fun cout s₅ step₅ hcout => ?_
  exact .ret ⟨((hsum.later step₃).later step₄).later step₅, hcout⟩

theorem wire_asserts (hout : out < s.list.next) (hz : Means s z f) :
    Asserts s (wire out z) fun m => m out = f m := by
  cases z with
  | true =>
    -- A constant is a single unit clause.
    refine (addClause_asserts ?_).congr fun m live => ?_
    · simpa using hout
    · simp [Satisfies, ← hz.value m live]
  | false =>
    refine (addClause_asserts ?_).congr fun m live => ?_
    · simpa using hout
    · simp [Satisfies, ← hz.value m live]
  | var v =>
    unfold wire
    dsimp only
    split
    · refine (emitBitEq_asserts hout hz.below).congr fun m live => ?_
      rw [← hz.value m live, Sig.value_var]
    · next same =>
      -- The output is the signal itself.
      have same : v = out := not_not.mp same
      subst same
      exact Asserts.skip fun m live => hz.value m live

theorem gate_asserts {p : Build Sig} (hout : out < s.list.next)
    (gate : Builds s p fun z s' => Means s' z f) :
    Asserts s (do let folded ← p; wire out folded) fun m => m out = f m := by
  intro aim
  refine gate.bind fun folded s' step means => ?_
  exact wire_asserts (step.lt hout) means (aim.later step)

theorem encodeNot_asserts (hosts : Hosts k s) (hout : out < s.list.next) (ha : a < s.list.next) :
    Asserts s (encodeNot k out a) fun m => m out = !m a :=
  gate_asserts hout (gateNot_builds (sig_means hosts ha))

theorem encodeXor_asserts (hosts : Hosts k s) (hout : out < s.list.next) (ha : a < s.list.next)
    (hb : b < s.list.next) : Asserts s (encodeXor k out a b) fun m => m out = (m a ^^ m b) :=
  gate_asserts hout (gateXor_builds (sig_means hosts ha) (sig_means hosts hb))

theorem encodeMux_asserts (hosts : Hosts k s) (hout : out < s.list.next)
    (hsel : sel < s.list.next) (ha : a < s.list.next) (hb : b < s.list.next) :
    Asserts s (encodeMux k out sel a b) fun m => m out = bif m sel then m a else m b :=
  gate_asserts hout
    (gateMux_builds hosts (sig_means hosts hsel) (sig_means hosts ha) (sig_means hosts hb))

theorem clash (apart : ∀ m, s.Live m → m a ≠ m b) :
    Asserts s (addClause []) fun m => m a = m b := by
  refine (addClause_asserts (by simp)).congr fun m live => ?_
  simp [Satisfies, apart m live]

theorem encodeBitEq_asserts (hosts : Hosts k s) (ha : a < s.list.next) (hb : b < s.list.next) :
    Asserts s (encodeBitEq k a b) fun m => m a = m b := by
  have hx : Means s (sig k a) fun m => m a := sig_means hosts ha
  have hy : Means s (sig k b) fun m => m b := sig_means hosts hb
  -- A unit clause for a constant and a signal.
  have unit {lit : Lit} {v : Nat} (var : lit.var = v) (below : v < s.list.next)
      (same : ∀ m, s.Live m → (lit.Holds m ↔ m a = m b)) :
      Asserts s (addClause [lit]) fun m => m a = m b := by
    refine (addClause_asserts ?_).congr fun m live => ?_
    · simpa [var] using below
    · simpa [Satisfies] using same m live
  unfold encodeBitEq
  generalize sig k a = x at hx
  generalize sig k b = y at hy
  cases x with
  | true =>
    cases y with
    | true => exact Asserts.skip fun m live => by rw [← hx.value m live, ← hy.value m live]
    | false => exact clash fun m live => by simp [← hx.value m live, ← hy.value m live]
    | var w => exact unit rfl hy.below fun m live => by simp [← hx.value m live, ← hy.value m live]
  | false =>
    cases y with
    | true => exact clash fun m live => by simp [← hx.value m live, ← hy.value m live]
    | false => exact Asserts.skip fun m live => by rw [← hx.value m live, ← hy.value m live]
    | var w => exact unit rfl hy.below fun m live => by simp [← hx.value m live, ← hy.value m live]
  | var v =>
    cases y with
    | true => exact unit rfl hx.below fun m live => by simp [← hx.value m live, ← hy.value m live]
    | false => exact unit rfl hx.below fun m live => by simp [← hx.value m live, ← hy.value m live]
    | var w =>
      dsimp only
      split
      · refine (emitBitEq_asserts hx.below hy.below).congr fun m live => ?_
        rw [← hx.value m live, ← hy.value m live, Sig.value_var, Sig.value_var]
      · next same =>
        -- One signal twice is equal to itself.
        have same : v = w := not_not.mp same
        subst same
        exact Asserts.skip fun m live => by rw [← hx.value m live, ← hy.value m live]

theorem addGuardedNot_asserts (hguard : guard < s.list.next) (hz : Means s z f) :
    Asserts s (addGuardedNot guard z) fun m => m guard = true ∨ f m = false := by
  cases z with
  | false => exact Asserts.skip fun m live => .inr (hz.value m live).symm
  | true =>
    refine (addClause_asserts ?_).congr fun m live => ?_
    · simpa using hguard
    · simp [Satisfies, ← hz.value m live]
  | var v =>
    refine (addClause_asserts ?_).congr fun m live => ?_
    · have within : v < s.list.next := hz.below
      simp [hguard, within]
    · simp [Satisfies, ← hz.value m live]

end Circuit

end Nixie.Bv
