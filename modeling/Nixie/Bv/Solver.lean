import Nixie.Bv.Division

/-! The bit-vector solver: terms with their bits, and the circuits of arithmetic operations. -/

namespace Nixie.Bv

open Netlist Circuit

abbrev TermId := Nat

/-- A bit-vector as the variables of its bits, lowest first. -/
structure BvVar where
  bits : List Nat
  width : Nat
  width_eq : bits.length = width
  deriving DecidableEq, Repr

inductive AbstractionKind where
  | mul
  | udiv
  | urem
  deriving DecidableEq, Repr

/-- An operator whose circuit was left out. -/
structure BvAbstraction where
  kind : AbstractionKind
  result : TermId
  a : TermId
  b : TermId
  /-- Width of the operands and of the result. -/
  width : Nat
  deriving DecidableEq, Repr

/-- The solver fields that building circuits reads and writes. -/
structure BvSolver where
  sat : Netlist
  consts : ConstBits
  termToBv : TermId → Option BvVar
  mulAbstractions : List BvAbstraction

namespace BvSolver

def reserveConstBits : Build ConstBits := do
  let constTrue ← newVar
  let constFalse ← newVar
  addClause [.pos constTrue]
  addClause [.neg constFalse]
  return ⟨constTrue, constFalse⟩

def new : BvSolver :=
  let (consts, sat) := reserveConstBits.run ⟨0, []⟩
  { sat, consts, termToBv := fun _ => none, mulAbstractions := [] }

def build (s : BvSolver) (circuit : Build Unit) : BvSolver :=
  { s with sat := (circuit.run s.sat).2 }

theorem length_newVars (count : Nat) (list : Netlist) :
    ((newVars count).run list).1.length = count := by
  induction count generalizing list with
  | zero => rfl
  | succ count ih => exact congrArg Nat.succ (ih _)

def newBv (s : BvSolver) (term : TermId) (width : Nat) : BvVar × BvSolver :=
  match s.termToBv term with
  | some v => (v, s)
  | none =>
    let v : BvVar := ⟨((newVars width).run s.sat).1, width, length_newVars width s.sat⟩
    (v, { s with
      sat := ((newVars width).run s.sat).2
      termToBv := Function.update s.termToBv term (some v) })

def binopBits (s : BvSolver) (a b : TermId) : Option (BvVar × BvVar) := do
  let va ← s.termToBv a
  let vb ← s.termToBv b
  if va.width = vb.width then some (va, vb) else none

/-- The bits of a result, unless they have another width. -/
def resultBits (s : BvSolver) (result : TermId) (width : Nat) : Option BvVar × BvSolver :=
  let (r, s) := s.newBv result width
  (if r.width = width then some r else none, s)

/-- Encode an operation on two operands; the flag tells whether it was encodable. -/
def binop (encode : ConstBits → List Nat → List Nat → List Nat → Build Unit)
    (s : BvSolver) (result a b : TermId) : Bool × BvSolver :=
  match s.binopBits a b with
  | none => (false, s)
  | some (va, vb) =>
    match s.resultBits result va.width with
    | (none, s) => (false, s)
    | (some r, s) => (true, s.build (encode s.consts r.bits va.bits vb.bits))

def divop (encode : ConstBits → List Nat → List Nat → List Nat → Build Unit)
    (s : BvSolver) (result a b : TermId) : Bool × BvSolver :=
  match s.binopBits a b with
  | none => (false, s)
  | some (va, _) => if va.width = 0 then (false, s) else binop encode s result a b

def bvMul : BvSolver → TermId → TermId → TermId → Bool × BvSolver := binop encodeMul

def bvUdiv : BvSolver → TermId → TermId → TermId → Bool × BvSolver := divop encodeUdiv

def bvUrem : BvSolver → TermId → TermId → TermId → Bool × BvSolver := divop encodeUrem

def bvSdiv : BvSolver → TermId → TermId → TermId → Bool × BvSolver := divop encodeSdiv

def bvSrem : BvSolver → TermId → TermId → TermId → Bool × BvSolver := divop encodeSrem

end BvSolver

inductive ArithOp where
  | mul
  | udiv
  | urem
  | sdiv
  | srem
  deriving DecidableEq, Repr

namespace ArithOp

def encode : ArithOp → ConstBits → List Nat → List Nat → List Nat → Build Unit
  | .mul => encodeMul
  | .udiv => encodeUdiv
  | .urem => encodeUrem
  | .sdiv => encodeSdiv
  | .srem => encodeSrem

def run : ArithOp → BvSolver → TermId → TermId → TermId → Bool × BvSolver
  | .mul => BvSolver.bvMul
  | .udiv => BvSolver.bvUdiv
  | .urem => BvSolver.bvUrem
  | .sdiv => BvSolver.bvSdiv
  | .srem => BvSolver.bvSrem

def denote {width : Nat} : ArithOp → BitVec width → BitVec width → BitVec width
  | .mul => fun x y => x * y
  | .udiv => BitVec.smtUDiv
  | .urem => BitVec.umod
  | .sdiv => BitVec.smtSDiv
  | .srem => BitVec.srem

end ArithOp

end Nixie.Bv

/-! The circuits of the arithmetic operations say what the operations mean on bit-vectors. -/

namespace Nixie.Bv

open Netlist Circuit

section

variable {width : Nat} (x y : BitVec width)

theorem toNat_neg_eq : (-x).toNat = complement width x.toNat := BitVec.toNat_neg x

theorem neg_toNat_eq_zero : complement width x.toNat = 0 ↔ x.toNat = 0 :=
  @underSign_eq_zero_iff width x.toNat true x.isLt

theorem toNat_smtUDiv_of_ne {y : BitVec width} (pos : y.toNat ≠ 0) :
    (BitVec.smtUDiv x y).toNat = x.toNat / y.toNat := by
  have nonzero : y ≠ 0 := fun zero => pos (by rw [zero]; rfl)
  rw [BitVec.smtUDiv, if_neg nonzero]
  exact BitVec.toNat_udiv

theorem toNat_smtUDiv : (BitVec.smtUDiv x y).toNat =
    if y.toNat = 0 then 2 ^ width - 1 else x.toNat / y.toNat := by
  by_cases zero : y.toNat = 0
  · -- The divisor is the zero bit-vector.
    obtain rfl : y = 0 := BitVec.eq_of_toNat_eq zero
    rw [if_pos zero, BitVec.smtUDiv, if_pos rfl, BitVec.toNat_allOnes]
  · rw [if_neg zero, toNat_smtUDiv_of_ne x zero]

theorem toNat_smtSDiv (pos : 0 < width) :
    (BitVec.smtSDiv x y).toNat = sdivVal width x.msb y.msb x.toNat y.toNat := by
  have one_lt : 1 < 2 ^ width := Nat.one_lt_two_pow (Nat.pos_iff_ne_zero.mp pos)
  unfold sdivVal BitVec.smtSDiv
  by_cases zero : y.toNat = 0
  · rw [if_pos zero]
    obtain rfl : y = 0 := BitVec.eq_of_toNat_eq zero
    -- Dividing by zero gives all ones, which a negative dividend turns into one.
    have noSign : (0 : BitVec width).msb = false := BitVec.msb_zero
    rw [noSign]
    cases x.msb with
    | false => simp only [toNat_smtUDiv, zero, if_true, cond_false]
    | true =>
      show (-(BitVec.smtUDiv (-x) 0)).toNat = 1
      rw [toNat_neg_eq, toNat_smtUDiv, if_pos zero, complement]
      have rest : 2 ^ width - (2 ^ width - 1) = 1 := by omega
      rw [rest, Nat.mod_eq_of_lt one_lt]
  · rw [if_neg zero]
    have nonzero : (-y).toNat ≠ 0 := by
      rw [toNat_neg_eq, Ne, neg_toNat_eq_zero]
      exact zero
    cases x.msb <;> cases y.msb
    · exact toNat_smtUDiv_of_ne x zero
    · show (-(BitVec.smtUDiv x (-y))).toNat = _
      rw [toNat_neg_eq, toNat_smtUDiv_of_ne x nonzero, toNat_neg_eq]
      rfl
    · show (-(BitVec.smtUDiv (-x) y)).toNat = _
      rw [toNat_neg_eq, toNat_smtUDiv_of_ne _ zero, toNat_neg_eq]
      rfl
    · show (BitVec.smtUDiv (-x) (-y)).toNat = _
      rw [toNat_smtUDiv_of_ne _ nonzero, toNat_neg_eq, toNat_neg_eq]
      rfl

theorem toNat_srem : (BitVec.srem x y).toNat = sremVal width x.msb y.msb x.toNat y.toNat := by
  unfold sremVal BitVec.srem
  by_cases zero : y.toNat = 0
  · rw [if_pos zero]
    obtain rfl : y = 0 := BitVec.eq_of_toNat_eq zero
    -- The remainder by zero is the dividend, negated twice where it is negative.
    have noSign : (0 : BitVec width).msb = false := BitVec.msb_zero
    rw [noSign]
    cases x.msb with
    | false => exact congrArg BitVec.toNat (BitVec.umod_zero)
    | true =>
      show (-((-x) % BitVec.ofNat width 0)).toNat = x.toNat
      rw [BitVec.umod_zero, BitVec.neg_neg]
  · rw [if_neg zero]
    cases x.msb <;> cases y.msb
    · exact BitVec.toNat_umod
    · show (x % (-y)).toNat = _
      rw [BitVec.toNat_umod, toNat_neg_eq]
      rfl
    · show (-((-x) % y)).toNat = _
      rw [toNat_neg_eq, BitVec.toNat_umod, toNat_neg_eq]
      rfl
    · show (-((-x) % (-y))).toNat = _
      rw [toNat_neg_eq, BitVec.toNat_umod, toNat_neg_eq, toNat_neg_eq]
      rfl

end

def word (width : Nat) (m : Assignment) (bits : List Nat) : BitVec width :=
  BitVec.ofNat width (bitsVal m bits)

theorem toNat_word {width : Nat} {bits : List Nat} (length : bits.length = width)
    (m : Assignment) : (word width m bits).toNat = bitsVal m bits := by
  rw [word, BitVec.toNat_ofNat, Nat.mod_eq_of_lt (length ▸ bitsVal_lt bits)]

theorem word_eq_iff_bitsVal {width : Nat} {bits : List Nat} (length : bits.length = width) {m : Assignment}
    {x : BitVec width} : word width m bits = x ↔ bitsVal m bits = x.toNat := by
  rw [← toNat_word length m]
  exact BitVec.toNat_inj.symm

theorem signBit_word {width : Nat} {bits : List Nat} (length : bits.length = width)
    (pos : 0 < width) (k : ConstBits) (m : Assignment) :
    m (signBit k bits) = (word width m bits).msb := by
  subst length
  have last : bits.length - 1 < bits.length := by omega
  rw [BitVec.msb_eq_getLsbD_last, word, BitVec.getLsbD_ofNat, decide_eq_true last,
    Bool.true_and, testBit_bitsVal _ last, signBit, List.getLastD_eq_getLast?,
    List.getLast?_eq_getElem?, List.getElem?_eq_getElem last, Option.getD_some]

variable {aimed : Prop} {known : Assignment → Prop} {s : Stage aimed known} {k : ConstBits}
  {result a b : List Nat} {width : Nat}

theorem ArithOp.encode_asserts (op : ArithOp) (hosts : Hosts k s) (pos : 0 < width)
    (lengthR : result.length = width) (lengthA : a.length = width) (lengthB : b.length = width)
    (has : s.Has result) (ha : s.Has a) (hb : s.Has b) :
    Asserts s (op.encode k result a b) fun m =>
      word width m result = op.denote (word width m a) (word width m b) := by
  have lengthAR : a.length = result.length := by rw [lengthA, lengthR]
  have lengthBR : b.length = result.length := by rw [lengthB, lengthR]
  have valA := toNat_word lengthA
  have valB := toNat_word lengthB
  cases op with
  | mul =>
    refine (encodeMul_asserts hosts has ha hb).congr fun m _ => ?_
    rw [word_eq_iff_bitsVal lengthR, denote, BitVec.toNat_mul, valA, valB, lengthR]
  | udiv =>
    refine (encodeUdiv_asserts hosts lengthAR lengthBR has ha hb).congr fun m _ => ?_
    rw [word_eq_iff_bitsVal lengthR, denote, toNat_smtUDiv, valA, valB, lengthR]
  | urem =>
    refine (encodeUrem_asserts hosts lengthAR lengthBR has ha hb).congr fun m _ => ?_
    have value : (BitVec.umod (word width m a) (word width m b)).toNat =
        (word width m a).toNat % (word width m b).toNat := BitVec.toNat_umod
    rw [word_eq_iff_bitsVal lengthR, denote, value, valA, valB]
  | sdiv =>
    refine (encodeSdiv_asserts hosts (lengthR ▸ pos) lengthAR lengthBR has ha hb).congr
      fun m _ => ?_
    rw [word_eq_iff_bitsVal lengthR, denote, toNat_smtSDiv _ _ pos, valA, valB, lengthR,
      signBit_word lengthA pos k m, signBit_word lengthB pos k m]
  | srem =>
    refine (encodeSrem_asserts hosts lengthAR lengthBR has ha hb).congr fun m _ => ?_
    rw [word_eq_iff_bitsVal lengthR, denote, toNat_srem, valA, valB, lengthR,
      signBit_word lengthA pos k m, signBit_word lengthB pos k m]

end Nixie.Bv
