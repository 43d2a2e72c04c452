import Nixie.Logic.Words

/-! The gates of the bit-blaster, which fold constants before they add a clause. -/

namespace Nixie.Bv

open Netlist

/-- A bit inside a circuit: a constant, or the variable that carries it. -/
inductive Sig where
  | true
  | false
  | var (v : Nat)
  deriving DecidableEq, Repr

def Sig.value (m : Assignment) : Sig → Bool
  | .true => Bool.true
  | .false => Bool.false
  | .var v => m v

@[simp] theorem Sig.value_true (m : Assignment) : Sig.value m .true = Bool.true := rfl
@[simp] theorem Sig.value_false (m : Assignment) : Sig.value m .false = Bool.false := rfl
@[simp] theorem Sig.value_var (m : Assignment) (v : Nat) : Sig.value m (.var v) = m v := rfl

/-- The two variables reserved for constant bits. -/
structure ConstBits where
  constTrue : Nat
  constFalse : Nat
  deriving DecidableEq, Repr

/-- The reserved variables have their values. -/
def ConstBits.Pinned (k : ConstBits) (m : Assignment) : Prop :=
  m k.constTrue = true ∧ m k.constFalse = false

namespace Circuit

variable (k : ConstBits)

/-- Read a variable as a constant or as a signal. -/
def sig (v : Nat) : Sig :=
  if v = k.constTrue then .true else if v = k.constFalse then .false else .var v

def sigVar : Sig → Nat
  | .true => k.constTrue
  | .false => k.constFalse
  | .var v => v

def emitBitEq (a b : Nat) : Build Unit := do
  addClause [.neg a, .pos b]
  addClause [.pos a, .neg b]

def wire (out : Nat) : Sig → Build Unit
  | .true => addClause [.pos out]
  | .false => addClause [.neg out]
  | .var v => if v ≠ out then emitBitEq out v else return ()

def encodeBitEq (a b : Nat) : Build Unit :=
  match sig k a, sig k b with
  | .true, .true | .false, .false => return ()
  | .var x, .var y => if x ≠ y then emitBitEq x y else return ()
  -- Two different constants are reported through the empty clause.
  | .true, .false | .false, .true => addClause []
  | .true, .var v | .var v, .true => addClause [.pos v]
  | .false, .var v | .var v, .false => addClause [.neg v]

def emitNot (out input : Nat) : Build Unit := do
  addClause [.pos out, .pos input]
  addClause [.neg out, .neg input]

def gateNot : Sig → Build Sig
  | .true => return .false
  | .false => return .true
  | .var v => do
    let out ← newVar
    emitNot out v
    return .var out

def emitAnd (out a b : Nat) : Build Unit := do
  addClause [.neg out, .pos a]
  addClause [.neg out, .pos b]
  addClause [.pos out, .neg a, .neg b]

def gateAnd (a b : Sig) : Build Sig :=
  match a, b with
  | .false, _ | _, .false => return .false
  | .true, x | x, .true => return x
  | .var x, .var y =>
    if x = y then return a
    else do
      let out ← newVar
      emitAnd out x y
      return .var out

def emitOr (out a b : Nat) : Build Unit := do
  addClause [.neg out, .pos a, .pos b]
  addClause [.pos out, .neg a]
  addClause [.pos out, .neg b]

def gateOr (a b : Sig) : Build Sig :=
  match a, b with
  | .true, _ | _, .true => return .true
  | .false, x | x, .false => return x
  | .var x, .var y =>
    if x = y then return a
    else do
      let out ← newVar
      emitOr out x y
      return .var out

def emitXor (out a b : Nat) : Build Unit := do
  addClause [.neg out, .neg a, .neg b]
  addClause [.neg out, .pos a, .pos b]
  addClause [.pos out, .neg a, .pos b]
  addClause [.pos out, .pos a, .neg b]

def gateXor (a b : Sig) : Build Sig :=
  match a, b with
  | .false, x | x, .false => return x
  | .true, x | x, .true => gateNot x
  | .var x, .var y =>
    if x = y then return .false
    else do
      let out ← newVar
      emitXor out x y
      return .var out

def gateXnor (a b : Sig) : Build Sig := do
  let x ← gateXor a b
  gateNot x

/-- The output says that the first input is off and the second on. -/
def emitAndNotA (out a b : Nat) : Build Unit := do
  addClause [.neg out, .neg a]
  addClause [.neg out, .pos b]
  addClause [.pos out, .pos a, .neg b]

/-- The first bit is off and the second on. -/
def gateAndNotA (a b : Sig) : Build Sig :=
  match a, b with
  | .true, _ | _, .false => return .false
  | .false, x => return x
  | .var x, .true => gateNot (.var x)
  | .var x, .var y =>
    if x = y then return .false
    else do
      let out ← newVar
      emitAndNotA out x y
      return .var out

def emitMux (out sel ifTrue ifFalse : Nat) : Build Unit := do
  addClause [.neg sel, .neg ifTrue, .pos out]
  addClause [.neg sel, .pos ifTrue, .neg out]
  addClause [.pos sel, .neg ifFalse, .pos out]
  addClause [.pos sel, .pos ifFalse, .neg out]

def gateMux (sel ifTrue ifFalse : Sig) : Build Sig :=
  match sel with
  | .true => return ifTrue
  | .false => return ifFalse
  | .var s =>
    if ifTrue = ifFalse then return ifTrue
    else
      match ifTrue, ifFalse with
      | .true, .false => return .var s
      | .false, .true => gateNot (.var s)
      | _, _ => do
        let out ← newVar
        emitMux out s (sigVar k ifTrue) (sigVar k ifFalse)
        return .var out

def gateFullAdder (a b carryIn : Sig) : Build (Sig × Sig) := do
  let axb ← gateXor a b
  let sum ← gateXor axb carryIn
  let aab ← gateAnd a b
  let caxb ← gateAnd carryIn axb
  let cout ← gateOr aab caxb
  return (sum, cout)

/-- The output is the negation of the input, with constants folded. -/
def encodeNot (out input : Nat) : Build Unit := do
  let folded ← gateNot (sig k input)
  wire out folded

def encodeXor (out a b : Nat) : Build Unit := do
  let folded ← gateXor (sig k a) (sig k b)
  wire out folded

def encodeMux (out sel ifTrue ifFalse : Nat) : Build Unit := do
  let folded ← gateMux k (sig k sel) (sig k ifTrue) (sig k ifFalse)
  wire out folded

def addGuardedNot (guard : Nat) : Sig → Build Unit
  | .false => return ()
  | .true => addClause [.pos guard]
  | .var v => addClause [.pos guard, .neg v]

end Circuit

end Nixie.Bv
