import Nixie.Bv.ArithModels

/-! Addition, subtraction and negation; the circuit for a constant shifts it by the bit index. -/

namespace Nixie.Bv

open Netlist Circuit Option Nat

namespace Circuit

section

variable (k : ConstBits)

def encodeAdder (result a b : List Nat) : Build Unit := do
  let _ ← encodeAdderCarry k result a b

def notBits : List Nat → Build (List Nat)
  | [] => return []
  | bit :: bits => do
    let notBit ← newVar
    encodeNot k notBit bit
    let rest ← notBits bits
    return notBit :: rest

/-- The bits of a 64-bit constant from an index on; nothing where a shift overflows. -/
def constSigs (constant : Nat) : Nat → Nat → Option (List Sig)
  | _, 0 => some []
  | i, count + 1 =>
    if 64 ≤ i then none
    else (constSigs constant (i + 1) count).map
      ((if (constant >>> i) &&& 1 = 1 then .true else .false) :: ·)

def encodeAddConst (result a : List Nat) (constant : List Sig) : Build Unit := do
  let _ ← ripple result (a.map (sig k)) constant .false

/-- Negate a word: invert the bits and add the constant one. -/
def encodeNeg (one : List Sig) (result a : List Nat) : Build Unit := do
  let inverted ← notBits k a
  encodeAddConst k result inverted one

def encodeSub (one : List Sig) (result a b : List Nat) : Build Unit := do
  let negB ← notBits k b
  let negBWithOne ← newVars a.length
  encodeAddConst k negBWithOne negB one
  encodeAdder k result a negBWithOne

end

end Circuit

namespace BvSolver

def bvAdd : BvSolver → TermId → TermId → TermId → Option (Bool × BvSolver) :=
  fun s result a b => some (binop encodeAdder s result a b)

def bvNeg (s : BvSolver) (result a : TermId) : Option (Bool × BvSolver) :=
  match s.termToBv a with
  | none => some (false, s)
  | some va =>
    match s.resultBits result va.width with
    | (none, s) => some (false, s)
    | (some r, s) => (constSigs 1 0 r.bits.length).map fun one =>
        (true, s.build (encodeNeg s.consts one r.bits va.bits))

def bvSub (s : BvSolver) (result a b : TermId) : Option (Bool × BvSolver) :=
  match s.binopBits a b with
  | none => some (false, s)
  | some (va, vb) =>
    match s.resultBits result va.width with
    | (none, s) => some (false, s)
    | (some r, s) => (constSigs 1 0 va.width).map fun one =>
        (true, s.build (encodeSub s.consts one r.bits va.bits vb.bits))

end BvSolver

inductive AddOp where
  | neg
  | add
  | sub
  deriving DecidableEq, Repr

namespace AddOp

/-- The call that encodes the operation; the second operand of a negation is not read. -/
def run : AddOp → BvSolver → TermId → TermId → TermId → Option (Bool × BvSolver)
  | .neg => fun s result a _ => s.bvNeg result a
  | .add => BvSolver.bvAdd
  | .sub => BvSolver.bvSub

/-- The circuit of the operation, from the bits of the constant one. -/
def circuit (one : List Sig) : AddOp → ConstBits → List Nat → List Nat → List Nat → Build Unit
  | .neg => fun k result a _ => encodeNeg k one result a
  | .add => encodeAdder
  | .sub => fun k => encodeSub k one

def constant (width : Nat) : AddOp → Option (List Sig)
  | .add => some []
  | .neg | .sub => constSigs 1 0 width

def denote {width : Nat} : AddOp → BitVec width → BitVec width → BitVec width
  | .neg => fun x _ => -x
  | .add => fun x y => x + y
  | .sub => fun x y => x - y

end AddOp

section

variable {aimed : Prop} {known : Assignment → Prop} {s : Stage aimed known} {k : ConstBits}
  {result a b : List Nat}

theorem constSigs_eq_none {constant i count : Nat} :
    constSigs constant i count = none ↔ 0 < count ∧ 64 < i + count := by
  induction count generalizing i with
  | zero => simp [constSigs]
  | succ count ih =>
    unfold constSigs
    split
    · simp
      omega
    · rw [map_eq_none_iff, ih]
      omega

theorem constSigs_spec {constant i count : Nat} {bits : List Sig}
    (some_ : constSigs constant i count = some bits) : bits.length = count ∧ Carried s bits ∧
      ∀ m, bitsVal (Sig.value m) bits = (constant >>> i) % 2 ^ count := by
  induction count generalizing i bits with
  | zero =>
    obtain rfl := some.inj some_
    exact ⟨rfl, fun _ mem => (nomatch mem), fun m => by simp [mod_one]⟩
  | succ count ih =>
    unfold constSigs at some_
    split at some_
    · cases some_
    · obtain ⟨rest, later, rfl⟩ := map_eq_some_iff.mp some_
      obtain ⟨length, carried, value⟩ := ih later
      refine ⟨by simp [length], carried_cons.mpr ⟨by split <;> trivial, carried⟩, fun m => ?_⟩
      -- The lowest bit is the parity of the shifted constant.
      rw [bitsVal_cons, value, shiftRight_succ, pow_succ', mod_mul, and_one_is_mod]
      split <;> rename_i parity <;> simp <;> omega

theorem ripple_asserts {outs : List Nat} {xs ys : List Sig} (lengthX : xs.length = outs.length)
    (lengthY : ys.length = outs.length) (has : s.Has outs) (hx : Carried s xs) (hy : Carried s ys) :
    Asserts s (do let _ ← ripple outs xs ys .false) fun m =>
      bitsVal m outs = (bitsVal (Sig.value m) xs + bitsVal (Sig.value m) ys) % 2 ^ outs.length := by
  intro aim
  refine (ripple_builds lengthX lengthY has hx hy (below_false _) fun h m live => ?_).bind
    fun c s₁ step ⟨_, counts⟩ => .ret fun m live => ?_
  · simpa using aim h m live
  · have whole := counts m live
    dsimp only at whole ⊢
    rw [Sig.value_false, Bool.toNat_false, add_zero] at whole
    rw [← whole, add_mul_mod_self_left, mod_eq_of_lt (bitsVal_lt outs)]

theorem encodeAdder_asserts (hosts : Hosts k s) (lengthA : a.length = result.length)
    (lengthB : b.length = result.length) (has : s.Has result) (ha : s.Has a) (hb : s.Has b) :
    Asserts s (encodeAdder k result a b) fun m =>
      bitsVal m result = (bitsVal m a + bitsVal m b) % 2 ^ result.length := by
  refine (ripple_asserts (by simpa using lengthA) (by simpa using lengthB) has (carried_sigs ha)
    (carried_sigs hb)).congr fun m live => ?_
  rw [bitsVal_sigs (hosts.pinned m live), bitsVal_sigs (hosts.pinned m live)]

theorem notBits_builds (hosts : Hosts k s) (ha : s.Has a) :
    Builds s (notBits k a) fun bits s' => bits.length = a.length ∧ s'.Has bits ∧
      s'.Entails fun m => bitsVal m bits + bitsVal m a + 1 = 2 ^ a.length := by
  induction a generalizing s with
  | nil => exact .ret ⟨rfl, Stage.has_nil, fun m _ => by simp⟩
  | cons bit rest ih =>
    obtain ⟨hbit, hrest⟩ := Stage.has_cons.mp ha
    have isLocal : Local s.list.next fun m => !m bit := by
      intro m m' agree
      simp only [agree bit hbit]
    refine define_then isLocal (fun out s₁ step within => encodeNot_asserts (hosts.later step) within
      (step.lt hbit)) fun out s₁ step₁ within inverted => ?_
    refine (ih (hosts.later step₁) (hrest.later step₁)).bind
      fun bits s₂ step₂ ⟨length, has, sum⟩ => ?_
    refine .ret ⟨by simp [length], Stage.has_cons.mpr ⟨step₂.lt within, has⟩, fun m live => ?_⟩
    -- A bit and its negation count one.
    have low : m out = !m bit := inverted m (step₂.narrows m live)
    have high := sum m live
    dsimp only at high ⊢
    rw [bitsVal_cons, bitsVal_cons, low, List.length_cons, pow_succ']
    cases m bit <;> simp <;> omega

theorem addOne_asserts {one : List Sig} {inverted : List Nat} (hosts : Hosts k s)
    (one_eq : constSigs 1 0 result.length = some one) (pos : 0 < result.length)
    (lengthI : inverted.length = result.length) (has : s.Has result) (hi : s.Has inverted)
    (sum : s.Entails fun m => bitsVal m inverted + bitsVal m a + 1 = 2 ^ result.length) :
    Asserts s (encodeAddConst k result inverted one) fun m =>
      bitsVal m result = complement result.length (bitsVal m a) := by
  obtain ⟨length, carried, value⟩ := constSigs_spec one_eq
  have unit : 1 < 2 ^ result.length := Nat.one_lt_two_pow (Nat.pos_iff_ne_zero.mp pos)
  refine (ripple_asserts (by simpa using lengthI) length has (carried_sigs hi) carried).congr
    fun m live => ?_
  have whole := sum m live
  dsimp only at whole
  rw [bitsVal_sigs (hosts.pinned m live), value, complement, shiftRight_zero,
    mod_eq_of_lt unit, show bitsVal m inverted + 1 = 2 ^ result.length - bitsVal m a by omega]

theorem encodeNeg_asserts {one : List Sig} (hosts : Hosts k s)
    (one_eq : constSigs 1 0 result.length = some one) (pos : 0 < result.length)
    (length : a.length = result.length) (has : s.Has result) (ha : s.Has a) :
    Asserts s (encodeNeg k one result a) fun m =>
      bitsVal m result = complement result.length (bitsVal m a) := by
  intro aim
  refine (notBits_builds hosts ha).bind fun inverted s₁ step ⟨lengthI, hi, sum⟩ => ?_
  exact addOne_asserts (hosts.later step) one_eq pos (lengthI.trans length) (has.later step)
    hi (length ▸ sum) (aim.later step)

theorem encodeSub_asserts {one : List Sig} (hosts : Hosts k s)
    (one_eq : constSigs 1 0 result.length = some one) (pos : 0 < result.length)
    (lengthA : a.length = result.length) (lengthB : b.length = result.length)
    (has : s.Has result) (ha : s.Has a) (hb : s.Has b) :
    Asserts s (encodeSub k one result a b) fun m => bitsVal m result =
      (bitsVal m a + complement result.length (bitsVal m b)) % 2 ^ result.length := by
  intro aim
  refine (notBits_builds hosts hb).bind fun inverted s₁ step₁ ⟨lengthI, hi, sum⟩ => ?_
  refine defineWord_then (local_complement (hb.later step₁)) (fun m => ?_)
    (fun negated s₂ step₂ length hn => ?_) fun negated s₂ step₂ length hn negated_eq => ?_
  · rw [lengthA, ← lengthB]
    exact complement_lt _ _
  · have same : negated.length = result.length := length.trans lengthA
    rw [lengthB, ← same]
    exact addOne_asserts (hosts.later (step₁.trans step₂)) (same ▸ one_eq) (same ▸ pos)
      (lengthI.trans (lengthB.trans same.symm)) hn (hi.later step₂)
      (same ▸ lengthB ▸ sum.later step₂)
  · -- The complement of the subtrahend is added.
    refine ((encodeAdder_asserts (hosts.later (step₁.trans step₂)) lengthA (length.trans lengthA)
      (has.later (step₁.trans step₂)) (ha.later (step₁.trans step₂)) hn).congr fun m live => ?_)
      (aim.later (step₁.trans step₂))
    have negated : bitsVal m negated = complement b.length (bitsVal m b) := negated_eq m live
    rw [negated, lengthB]

end

namespace AddOp

variable {op : AddOp} {s : BvSolver} {result a b : TermId} {va vb : BvVar} {width : Nat}

theorem constant_eq_none : op.constant width = none ↔ op ≠ .add ∧ 64 < width := by
  cases op <;> simp [constant, constSigs_eq_none] <;> omega

theorem circuit_encodes {one : List Sig} (fits : op.constant width = some one)
    (pos : 0 < width) : BvSolver.Encodes (op.circuit one) width op.denote := by
  intro aimed known s k result a b hosts lengthR lengthA lengthB has ha hb
  subst lengthR
  have valA := toNat_word lengthA
  have valB := toNat_word lengthB
  cases op with
  | neg =>
    refine (encodeNeg_asserts hosts fits pos lengthA has ha).congr fun m _ => ?_
    rw [word_eq_iff_bitsVal rfl, denote, toNat_neg_eq, valA]
  | add =>
    refine (encodeAdder_asserts hosts lengthA lengthB has ha hb).congr fun m _ => ?_
    rw [word_eq_iff_bitsVal rfl, denote, BitVec.toNat_add, valA, valB]
  | sub =>
    refine (encodeSub_asserts hosts fits pos lengthA lengthB has ha hb).congr fun m _ => ?_
    have value : (sub.denote (word result.length m a) (word result.length m b)).toNat = _ :=
      BitVec.toNat_sub _ _
    rw [word_eq_iff_bitsVal rfl, value, valA, valB, complement, add_mod_mod, add_comm]

theorem run_eq (ha : s.termToBv a = some va) (hb : s.termToBv b = some vb)
    (same : va.width = vb.width) (fits : (s.newBv result va.width).1.width = va.width) :
    op.run s result a b = (op.constant va.width).map fun one =>
      (true, s.encoded (op.circuit one) result va vb) := by
  have bits := BvSolver.resultBits_eq fits
  cases op with
  | neg =>
    have length := (s.newBv result va.width).1.width_eq.trans fits
    simp only [run, BvSolver.bvNeg, ha, bits, length]
    rfl
  | add => exact congrArg some (BvSolver.binop_eq ha hb same fits)
  | sub =>
    simp only [run, BvSolver.bvSub, BvSolver.binopBits_eq ha hb same, bits]
    rfl

/--
Exactly when a call succeeds and its clauses force the result to be the value of the operation.

The constant one of a negation or subtraction is shifted by the index of every bit, so from a
width of 65 on a shift overflows.
-/
theorem computes_iff (op : AddOp) (wf : s.WellFormed) (ha : s.termToBv a = some va)
    (hb : s.termToBv b = some vb) (same : va.width = vb.width) (positive : 0 < va.width)
    (fits : ∀ r, s.termToBv result = some r → r.width = va.width) :
    (∃ s', op.run s result a b = some (true, s') ∧ s.Computes s' result va vb op.denote) ↔
      op = .add ∨ va.width ≤ 64 := by
  rw [run_eq ha hb same (BvSolver.newBv_width fits)]
  cases shifts : op.constant va.width with
  | none =>
    obtain ⟨other, wide⟩ := constant_eq_none.mp shifts
    simp [other, wide]
  | some one =>
    have narrow : ¬ (op ≠ .add ∧ 64 < va.width) := by
      simp [← constant_eq_none, shifts]
    refine iff_of_true ⟨_, rfl, ?_⟩ (by by_contra wide; exact narrow (by simpa using wide))
    exact BvSolver.encoded_computes (circuit_encodes shifts positive) wf ha hb same fits

/-- Two fresh operands of the greatest width whose difference can be encoded. -/
theorem sub_computes : (∃ va vb, ∃ s', sub.run (BvSolver.withOperands 64) 2 0 1 = some (true, s') ∧
    (BvSolver.withOperands 64).Computes s' 2 va vb sub.denote) := by
  obtain ⟨wf, ⟨va, ha, widthA⟩, ⟨vb, hb, widthB⟩, none⟩ := BvSolver.withOperands_spec 64
  exact ⟨va, vb, (computes_iff sub wf ha hb (widthA.trans widthB.symm) (by omega) fun r found => by
    rw [none] at found; cases found).mpr (.inr widthA.le)⟩

/-- Negating an operand of 65 bits overflows a shift. -/
theorem neg_overflows : neg.run (BvSolver.withOperands 65) 2 0 0 = none := by
  obtain ⟨_, ⟨va, ha, widthA⟩, _, none⟩ := BvSolver.withOperands_spec 65
  rw [run_eq ha ha rfl (BvSolver.newBv_width fun r found => by rw [none] at found; cases found),
    constant_eq_none.mpr ⟨by decide, by omega⟩, map_none]

end AddOp

end Nixie.Bv
