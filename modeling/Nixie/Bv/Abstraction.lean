import Nixie.Bv.ArithModels

/-! Wide operators without their circuits: result bits that only some lemmas constrain. -/

namespace Nixie.Bv

open Netlist Circuit

/-- The value of the operator on numbers, with what SMT-LIB says of a divisor of zero. -/
def BvAbstraction.exactValue (abs : BvAbstraction) (va vb : Nat) : Nat :=
  let mask := 2 ^ abs.width - 1
  match abs.kind with
  | .mul => va * vb &&& mask
  | .udiv => if vb = 0 then mask else va / vb
  | .urem => if vb = 0 then va &&& mask else va % vb

namespace Circuit

variable (k : ConstBits)

/-- The bit so far and all the given bits off. -/
def clearDetect : List Nat → Sig → Build Sig
  | [], acc => return acc
  | bit :: bits, acc => do
    let notB ← gateNot (sig k bit)
    let acc ← gateAnd acc notB
    clearDetect bits acc

def zeroDetect (bits : List Nat) : Build Sig := clearDetect k bits .true

/-- The word is one: its lowest bit is on and the rest off. -/
def oneDetect : List Nat → Build Sig
  | [] => return .false
  | first :: rest => clearDetect k rest (sig k first)

/-- The bit so far and equality of both words. -/
def eqDetect : List Nat → List Nat → Sig → Build Sig
  | a :: as, b :: bs, acc => do
    let xnor ← gateXnor (sig k a) (sig k b)
    let acc ← gateAnd acc xnor
    eqDetect as bs acc
  | _, _, acc => return acc

/-- The clause under a guard, which may be constant. -/
def guarded (guard : Sig) (clause : Clause) : Build Unit :=
  match guard with
  | .true => addClause clause
  | .var z => addClause (.neg z :: clause)
  | .false => return ()

/-- Under the guard the result bit is the given bit of an operand, where there is one. -/
def guardedCopy (guard : Sig) (m : Nat) : Option Nat → Build Unit
  | some bit => do
    guarded guard [.neg m, .pos bit]
    guarded guard [.pos m, .neg bit]
  | none => return ()

/-- Emit clauses for one result bit after another; a constant result bit stops. -/
def eachResultBit (emit : Nat → Nat → Build Unit) : List Nat → Nat → Build Bool
  | [], _ => return true
  | mBit :: rest, idx =>
    match sig k mBit with
    | .var m => do
      emit idx m
      eachResultBit emit rest (idx + 1)
    | _ => return false

/-- What the detectors of a multiplication say of one result bit. -/
def mulBitLemmas (zeroA zeroB oneA oneB : Sig) (a b r : List Nat) (m : Nat) : Build Unit := do
  guarded zeroA [.neg m]
  guarded zeroB [.neg m]
  guardedCopy oneA m b[r.idxOf m]?
  guardedCopy oneB m a[r.idxOf m]?

def abstractMulCircuit (r a b : List Nat) : Build Bool := do
  let zeroA ← zeroDetect k a
  let zeroB ← zeroDetect k b
  let oneA ← oneDetect k a
  let oneB ← oneDetect k b
  eachResultBit k (fun _ m => mulBitLemmas zeroA zeroB oneA oneB a b r m) r 0

/-- The literal of a result bit with the wanted value. -/
def target (m : Nat) (value : Bool) : Lit := if value then .pos m else .neg m

/-- Both detectors are signals, or one is on and the other off. -/
def guardedPair (detect zeroB : Sig) (lit : Lit) : Build Unit :=
  match detect, zeroB with
  | .var d, .var z => addClause [.neg d, .neg z, lit]
  | .true, .false => addClause [lit]
  | _, _ => return ()

/-- What the detectors of a division say of one result bit. -/
def divBitLemmas (urem : Bool) (zeroA zeroB oneB eqAB : Sig) (a : List Nat) (idx m : Nat) :
    Build Unit := do
  if urem then guardedCopy zeroB m a[idx]? else guarded zeroB [.pos m]
  if urem then guarded oneB [.neg m] else guardedCopy oneB m a[idx]?
  guardedPair zeroA zeroB (.neg m)
  guardedPair eqAB zeroB (target m (!urem && idx == 0))

def abstractUdivUremCircuit (urem : Bool) (r a b : List Nat) : Build Bool := do
  let zeroB ← zeroDetect k b
  let oneB ← oneDetect k b
  let zeroA ← zeroDetect k a
  let eqAB ← eqDetect k a b .true
  eachResultBit k (fun idx m => divBitLemmas urem zeroA zeroB oneB eqAB a idx m) r 0

/-- Literals that are off exactly where the operands have the given values. -/
def valueGuard (va vb : Nat) : List Nat → List Nat → Nat → Clause
  | a :: as, b :: bs, i =>
    target a (!va.testBit i) :: target b (!vb.testBit i) :: valueGuard va vb as bs (i + 1)
  | _, _, _ => []

/-- The result bits of one pair of operand values. -/
def valueLemmas (guard : Clause) (exact : Nat) : List Nat → Nat → Build Unit
  | [], _ => return ()
  | m :: rest, j => do
    addClause (guard ++ [target m (exact.testBit j)])
    valueLemmas guard exact rest (j + 1)

end Circuit

namespace BvSolver

/-- Run the lemmas of an abstraction and record it unless they stopped. -/
def abstractOp (kind : AbstractionKind)
    (circuit : ConstBits → List Nat → List Nat → List Nat → Build Bool)
    (s : BvSolver) (result a b : TermId) : Bool × BvSolver :=
  match s.binopBits a b with
  | none => (false, s)
  | some (va, vb) =>
    match s.resultBits result va.width with
    | (none, s) => (false, s)
    | (some r, s) =>
      let (ok, sat) := (circuit s.consts r.bits va.bits vb.bits).run s.sat
      let s := { s with sat }
      if ok then (true, { s with
        mulAbstractions := s.mulAbstractions ++ [⟨kind, result, a, b, va.width⟩] })
      else (false, s)

def abstractMul : BvSolver → TermId → TermId → TermId → Bool × BvSolver :=
  abstractOp .mul abstractMulCircuit

/-- Leave out the circuit of an unsigned division or remainder. -/
def abstractUdivUrem (s : BvSolver) (result a b : TermId) (urem : Bool) : Bool × BvSolver :=
  abstractOp (if urem then .urem else .udiv) (fun k => abstractUdivUremCircuit k urem) s result a b

/-- Demand the exact result for one pair of operand values. -/
def refineAbstractionValue (s : BvSolver) (abs : BvAbstraction) (va vb : Nat) : Bool × BvSolver :=
  match s.termToBv abs.a, s.termToBv abs.b, s.termToBv abs.result with
  | some ra, some rb, some rr =>
    if ra.width ≠ abs.width ∨ rb.width ≠ abs.width ∨ rr.width ≠ abs.width then (false, s)
    else (true, s.build
      (valueLemmas (valueGuard va vb ra.bits rb.bits 0) (abs.exactValue va vb) rr.bits 0))
  | _, _, _ => (false, s)

end BvSolver

end Nixie.Bv

/-! What detectors tell of a word, and what the lemmas that they guard say. -/

namespace Nixie.Bv

open Netlist

def Sig.isVar : Sig → Bool
  | .true | .false => Bool.false
  | .var _ => Bool.true

/-- A detector and the zero detector of the divisor are both on, or folded to on and off. -/
def Sig.PairActive (m : Assignment) : Sig → Sig → Prop
  | .var d, .var z => m d = Bool.true ∧ m z = Bool.true
  | .true, .false => True
  | _, _ => False

/-- A variable that is not one of the two constants. -/
def isSignal (k : ConstBits) (bit : Nat) : Bool := (Circuit.sig k bit).isVar

namespace Circuit

variable {k : ConstBits}

theorem sig_of_isSignal {bit : Nat} (signal : isSignal k bit = true) : sig k bit = .var bit := by
  cases same : sig k bit with
  | true | false => simp [isSignal, same, Sig.isVar] at signal
  | var v => rw [sig_var same]

section

variable {x y : Sig} {list : Netlist}

theorem run_bind {α β : Type} (p : Build α) (f : α → Build β) (list : Netlist) :
    (p >>= f).run list = (f (p.run list).1).run (p.run list).2 := rfl

theorem gateNot_isVar : ((gateNot x).run list).1.isVar = x.isVar := by
  cases x <;> rfl

theorem gateNot_eq_true (on : ((gateNot x).run list).1 = .true) : x = .false := by
  cases x with
  | true | var v => cases on
  | false => rfl

theorem gateAnd_eq_true (on : ((gateAnd x y).run list).1 = .true) : x = .true ∧ y = .true := by
  cases x with
  | false => cases y <;> cases on
  | true => exact ⟨rfl, by cases y <;> first | rfl | cases on⟩
  | var a =>
    cases y with
    | true | false => cases on
    | var b =>
      simp only [gateAnd] at on
      split at on <;> cases on

theorem isVar_of_gateAnd (open_ : ((gateAnd x y).run list).1.isVar = true) :
    x.isVar = true ∨ y.isVar = true := by
  cases x with
  | true => exact .inr (by cases y <;> exact open_)
  | false => cases y <;> cases open_
  | var a => exact .inl rfl

theorem gateXnor_eq_true (on : ((gateXnor x y).run list).1 = .true) : x.isVar = y.isVar := by
  have off := gateNot_eq_true on
  cases x with
  | true | false =>
    cases y with
    | true | false => rfl
    | var b => cases off
  | var a =>
    cases y with
    | true | false => cases off
    | var b => rfl

variable {bits : List Nat} {acc : Sig}

theorem clearDetect_eq_true (on : ((clearDetect k bits acc).run list).1 = .true) :
    acc = .true ∧ ∀ bit ∈ bits, sig k bit = .false := by
  induction bits generalizing acc list with
  | nil => exact ⟨on, fun _ mem => (nomatch mem)⟩
  | cons bit bits ih =>
    simp only [clearDetect, run_bind] at on
    obtain ⟨both, rest⟩ := ih on
    obtain ⟨before, this⟩ := gateAnd_eq_true both
    exact ⟨before, List.forall_mem_cons.mpr ⟨gateNot_eq_true this, rest⟩⟩

theorem isVar_of_clearDetect (open_ : ((clearDetect k bits acc).run list).1.isVar = true) :
    acc.isVar = true ∨ ∃ bit ∈ bits, isSignal k bit = true := by
  induction bits generalizing acc list with
  | nil => exact .inl open_
  | cons bit bits ih =>
    simp only [clearDetect, run_bind] at open_
    rcases ih open_ with both | ⟨other, mem, signal⟩
    · rcases isVar_of_gateAnd both with before | this
      · exact .inl before
      · rw [gateNot_isVar] at this
        exact .inr ⟨bit, List.mem_cons_self, this⟩
    · exact .inr ⟨other, List.mem_cons_of_mem _ mem, signal⟩

theorem eqDetect_eq_true {as bs : List Nat} (length : as.length = bs.length)
    (on : ((eqDetect k as bs acc).run list).1 = .true) (signal : ∃ bit ∈ bs, isSignal k bit = true) :
    ∃ bit ∈ as, isSignal k bit = true := by
  -- The fold has only conjoined equalities of pairs.
  have pairs : acc = .true ∧
      ((∃ bit ∈ bs, isSignal k bit = true) → ∃ bit ∈ as, isSignal k bit = true) := by
    clear signal
    induction as generalizing bs acc list with
    | nil =>
      obtain rfl : bs = [] := List.length_eq_zero_iff.mp length.symm
      exact ⟨on, id⟩
    | cons a as ih =>
      cases bs with
      | nil => simp at length
      | cons b bs =>
        simp only [eqDetect, run_bind] at on
        obtain ⟨both, rest⟩ := ih (by simpa using length) on
        obtain ⟨before, this⟩ := gateAnd_eq_true both
        have same : isSignal k a = isSignal k b := gateXnor_eq_true this
        refine ⟨before, ?_⟩
        rintro ⟨bit, mem, signal⟩
        rcases List.mem_cons.mp mem with rfl | mem
        · exact ⟨a, List.mem_cons_self, same.trans signal⟩
        · obtain ⟨other, lies, signal⟩ := rest ⟨bit, mem, signal⟩
          exact ⟨other, List.mem_cons_of_mem _ lies, signal⟩
  exact pairs.2 signal

end

variable {aimed : Prop} {known : Assignment → Prop} {s s' : Stage aimed known}
  {f : Assignment → Bool} {acc guard : Sig}

theorem clearDetect_builds {bits : List Nat} (hosts : Hosts k s) (has : s.Has bits)
    (hacc : Means s acc f) :
    Builds s (clearDetect k bits acc) fun z s' => Means s' z fun m =>
      f m && decide (bitsVal m bits = 0) := by
  induction bits generalizing s acc f with
  | nil => exact .ret (hacc.congr fun m _ => by simp)
  | cons bit bits ih =>
    obtain ⟨hbit, has⟩ := Stage.has_cons.mp has
    refine (gateNot_builds (sig_means hosts hbit)).bind fun notB s₁ step₁ hnot => ?_
    refine (gateAnd_builds (hacc.later step₁) hnot).bind fun acc' s₂ step₂ hand => ?_
    have upTo := step₁.trans step₂
    refine (ih (hosts.later upTo) (has.later upTo) hand).imp fun z s₃ _ means => ?_
    -- The word is zero when its lowest bit is off and the rest is zero.
    refine means.congr fun m _ => ?_
    rw [bitsVal_cons]
    cases m bit <;> simp

theorem zeroDetect_builds {bits : List Nat} (hosts : Hosts k s) (has : s.Has bits) :
    Builds s (zeroDetect k bits) fun z s' => Means s' z fun m => decide (bitsVal m bits = 0) := by
  have start : Means s .true fun _ => true := .isTrue fun _ _ => rfl
  refine (clearDetect_builds hosts has start).imp fun z s' _ means => ?_
  exact means.congr fun m _ => Bool.true_and _

theorem oneDetect_builds {bits : List Nat} (hosts : Hosts k s) (has : s.Has bits) :
    Builds s (oneDetect k bits) fun z s' => Means s' z fun m => decide (bitsVal m bits = 1) := by
  cases bits with
  | nil => exact .ret (.isFalse fun m _ => by simp)
  | cons first rest =>
    obtain ⟨hfirst, has⟩ := Stage.has_cons.mp has
    refine (clearDetect_builds hosts has (sig_means hosts hfirst)).imp fun z s' _ means => ?_
    -- One is its lowest bit with nothing above.
    refine means.congr fun m _ => ?_
    rw [bitsVal_cons]
    cases m first <;> simp

theorem eqDetect_builds {as bs : List Nat} (hosts : Hosts k s) (length : as.length = bs.length)
    (ha : s.Has as) (hb : s.Has bs) (hacc : Means s acc f) :
    Builds s (eqDetect k as bs acc) fun z s' => Means s' z fun m =>
      f m && decide (bitsVal m as = bitsVal m bs) := by
  induction as generalizing s bs acc f with
  | nil =>
    obtain rfl : bs = [] := List.length_eq_zero_iff.mp length.symm
    exact .ret (hacc.congr fun m _ => by simp)
  | cons a as ih =>
    cases bs with
    | nil => simp at length
    | cons b bs =>
      obtain ⟨ha₀, ha⟩ := Stage.has_cons.mp ha
      obtain ⟨hb₀, hb⟩ := Stage.has_cons.mp hb
      refine (gateXnor_builds (sig_means hosts ha₀) (sig_means hosts hb₀)).bind
        fun xnor s₁ step₁ hxnor => ?_
      refine (gateAnd_builds (hacc.later step₁) hxnor).bind fun acc' s₂ step₂ hand => ?_
      have upTo := step₁.trans step₂
      refine (ih (hosts.later upTo) (by simpa using length) (ha.later upTo) (hb.later upTo)
        hand).imp fun z s₃ _ means => means.congr fun m _ => ?_
      have pair : decide (bitsVal m (a :: as) = bitsVal m (b :: bs)) =
          ((m a == m b) && decide (bitsVal m as = bitsVal m bs)) := by
        rw [Bool.eq_iff_iff]
        simp only [decide_eq_true_eq, bitsVal_cons_inj, Bool.and_eq_true, beq_iff_eq]
      rw [pair, Bool.and_assoc]

variable {mBit : Nat}

theorem guarded_asserts {clause : Clause} (hguard : Means s guard f)
    (below : ∀ lit ∈ clause, lit.var < s.list.next) :
    Asserts s (guarded guard clause) fun m => f m = true → Satisfies m clause := by
  cases guard with
  | true =>
    refine (addClause_asserts below).congr fun m live => ?_
    simp [← hguard.value m live]
  | false => exact Asserts.skip fun m live on => by simp [← hguard.value m live] at on
  | var z =>
    -- The negated guard is one more literal.
    have hz : (Lit.neg z).var < s.list.next := hguard.below
    refine (addClause_asserts (List.forall_mem_cons.mpr ⟨hz, below⟩)).congr fun m live => ?_
    rw [← hguard.value m live]
    cases on : m z <;> simp [Satisfies, on]

theorem guardedCopy_asserts {source : Option Nat} (hguard : Means s guard f)
    (hm : mBit < s.list.next) (hsource : ∀ bit ∈ source, bit < s.list.next) :
    Asserts s (guardedCopy guard mBit source) fun m =>
      f m = true → ∀ bit ∈ source, m mBit = m bit := by
  cases source with
  | none => exact Asserts.skip fun m _ _ bit mem => (nomatch mem)
  | some bit =>
    have hbit : bit < s.list.next := hsource bit rfl
    have forth := @guarded_asserts _ _ _ _ _ [.neg mBit, .pos bit] hguard (by simp [hm, hbit])
    refine (forth.seq fun s' step => @guarded_asserts _ _ _ _ _ [.pos mBit, .neg bit]
      (hguard.later step) (by simp [step.lt hm, step.lt hbit])).congr fun m _ => ?_
    cases f m <;> cases on : m mBit <;> cases same : m bit <;> simp [Satisfies, on, same]

theorem guardedPair_asserts {detect zeroB : Sig} {lit : Lit} (hdetect : detect.Below s.list.next)
    (hzero : zeroB.Below s.list.next) (below : lit.var < s.list.next) :
    Asserts s (guardedPair detect zeroB lit) fun m =>
      Sig.PairActive m detect zeroB → lit.Holds m := by
  cases detect with
  | false => cases zeroB <;> exact Asserts.skip fun m _ active => active.elim
  | true =>
    cases zeroB with
    | false =>
      refine (addClause_asserts (by simpa using below)).congr fun m _ => ?_
      simp [Satisfies, Sig.PairActive]
    | true | var z => exact Asserts.skip fun m _ active => active.elim
  | var d =>
    cases zeroB with
    | true | false => exact Asserts.skip fun m _ active => active.elim
    | var z =>
      have hd : d < s.list.next := hdetect
      have hz : z < s.list.next := hzero
      refine (addClause_asserts (by simp [hd, hz, below])).congr fun m _ => ?_
      cases on : m d <;> cases on' : m z <;> simp [Satisfies, Sig.PairActive, on, on']

theorem target_var (mBit : Nat) (value : Bool) : (target mBit value).var = mBit := by
  cases value <;> rfl

theorem target_holds {m : Assignment} (mBit : Nat) (value : Bool) :
    (target mBit value).Holds m ↔ m mBit = value := by
  cases value <;> simp [target]

end Circuit

end Nixie.Bv
