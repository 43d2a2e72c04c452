import Nixie.Bv.Relaxation

/-! The exact results that the calls on abstracted operators leave possible. -/

namespace Nixie.Bv

open Netlist Circuit List Nat

namespace Circuit

variable {aimed : Prop} {known : Assignment → Prop} {s : Stage aimed known} {m : Assignment}

theorem valueGuard_off {va vb i : Nat} {as bs : List Nat} (length : as.length = bs.length) :
    ¬Satisfies m (valueGuard va vb as bs i) ↔
      bitsVal m as = va / 2 ^ i % 2 ^ as.length ∧ bitsVal m bs = vb / 2 ^ i % 2 ^ bs.length := by
  induction as generalizing bs i with
  | nil =>
    obtain rfl : bs = [] := length_eq_zero_iff.mp length.symm
    simp [valueGuard, Satisfies, mod_one]
  | cons a as ih =>
    cases bs with
    | nil => simp at length
    | cons b bs =>
      have rest := @ih (i + 1) bs (by simpa using length)
      -- Halving a value moves to its next digit.
      have half : ∀ n, n / 2 ^ i / 2 = n / 2 ^ (i + 1) := fun n => by
        rw [Nat.div_div_eq_div_mul, Nat.pow_succ]
      have digit : ∀ n, (n / 2 ^ i).testBit 0 = n.testBit i := fun n => by
        rw [testBit_div_two_pow, zero_add]
      have split : Satisfies m (valueGuard va vb (a :: as) (b :: bs) i) ↔
          m a = !va.testBit i ∨ m b = !vb.testBit i ∨
            Satisfies m (valueGuard va vb as bs (i + 1)) := by
        simp [valueGuard, Satisfies, target_holds]
      rw [split, length_cons, length_cons, bitsVal_cons_eq_mod, bitsVal_cons_eq_mod,
        digit, digit, half, half, not_or, not_or, rest, Bool.eq_not, Bool.eq_not, not_not, not_not]
      tauto

theorem valueGuard_below {va vb i : Nat} {as bs : List Nat} (ha : s.Has as) (hb : s.Has bs) :
    ∀ lit ∈ valueGuard va vb as bs i, lit.var < s.list.next := by
  induction as generalizing bs i with
  | nil => exact fun lit mem => (nomatch mem)
  | cons a as ih =>
    cases bs with
    | nil => exact fun lit mem => (nomatch mem)
    | cons b bs =>
      obtain ⟨ha₀, ha⟩ := Stage.has_cons.mp ha
      obtain ⟨hb₀, hb⟩ := Stage.has_cons.mp hb
      intro lit mem
      rcases mem_cons.mp mem with rfl | mem
      · rwa [target_var]
      · rcases mem_cons.mp mem with rfl | mem
        · rwa [target_var]
        · exact ih ha hb lit mem

theorem valueLemmas_asserts {guard : Clause} {exact j : Nat} {r : List Nat}
    (below : ∀ lit ∈ guard, lit.var < s.list.next) (has : s.Has r) :
    Asserts s (valueLemmas guard exact r j) fun m =>
      ¬Satisfies m guard → bitsVal m r = exact / 2 ^ j % 2 ^ r.length := by
  induction r generalizing s j with
  | nil => exact Asserts.skip fun m _ _ => by simp [mod_one]
  | cons bit rest ih =>
    obtain ⟨hbit, has⟩ := Stage.has_cons.mp has
    refine ((addClause_asserts ?_).seq fun s' step =>
      ih (fun lit mem => step.lt (below lit mem)) (has.later step)).congr fun m _ => ?_
    · intro lit mem
      rcases mem_append.mp mem with lies | single
      · exact below lit lies
      · rw [mem_singleton.mp single, target_var]
        exact hbit
    · have digit : (exact / 2 ^ j).testBit 0 = exact.testBit j := by
        rw [testBit_div_two_pow, zero_add]
      have half : exact / 2 ^ j / 2 = exact / 2 ^ (j + 1) := by
        rw [Nat.div_div_eq_div_mul, Nat.pow_succ]
      have split : Satisfies m (guard ++ [target bit (exact.testBit j)]) ↔
          Satisfies m guard ∨ m bit = exact.testBit j := by
        simp only [Satisfies, mem_append, mem_singleton, or_and_right, exists_or,
          exists_eq_left, target_holds]
      rw [split, length_cons, bitsVal_cons_eq_mod, digit, half]
      tauto

end Circuit

def AbstractionKind.op : AbstractionKind → ArithOp
  | .mul => .mul
  | .udiv => .udiv
  | .urem => .urem

def AbstractionKind.number (width x y : Nat) : AbstractionKind → Nat
  | .mul => x * y % 2 ^ width
  | .udiv => divExact false width x y
  | .urem => divExact true width x y

theorem AbstractionKind.toNat_denote (kind : AbstractionKind) {width : Nat} (x y : BitVec width) :
    (kind.op.denote x y).toNat = kind.number width x.toNat y.toNat := by
  cases kind with
  | mul => exact BitVec.toNat_mul x y
  | udiv => exact toNat_smtUDiv x y
  | urem => exact BitVec.toNat_umod

theorem BvAbstraction.exactValue_eq (abs : BvAbstraction) {va vb : Nat}
    (small : va < 2 ^ abs.width) :
    abs.exactValue va vb = abs.kind.number abs.width va vb := by
  unfold exactValue AbstractionKind.number divExact
  cases abs.kind with
  | mul => exact and_two_pow_sub_one_eq_mod _ _
  | udiv => rfl
  | urem =>
    -- A remainder by zero is the dividend.
    show (if vb = 0 then va &&& (2 ^ abs.width - 1) else va % vb) = va % vb
    split
    · next zero => rw [zero, mod_zero, and_two_pow_sub_one_eq_mod, mod_eq_of_lt small]
    · rfl

theorem AbstractionKind.number_lt (kind : AbstractionKind) {width x y : Nat}
    (small : x < 2 ^ width) : kind.number width x y < 2 ^ width := by
  have pos : 0 < 2 ^ width := Nat.two_pow_pos width
  cases kind with
  | mul => exact mod_lt _ pos
  | udiv =>
    show (if y = 0 then 2 ^ width - 1 else x / y) < 2 ^ width
    split
    · omega
    · exact lt_of_le_of_lt (div_le_self x y) small
  | urem => exact lt_of_le_of_lt (mod_le x y) small

/-- A call that adds clauses for an operator without its circuit. -/
inductive AbstractionCall where
  | mul (result a b : TermId)
  | udivUrem (result a b : TermId) (urem : Bool)
  | refine (abs : BvAbstraction) (va vb : Nat)
  deriving DecidableEq, Repr

namespace AbstractionCall

def run (s : BvSolver) : AbstractionCall → Bool × BvSolver
  | .mul result a b => s.abstractMul result a b
  | .udivUrem result a b urem => s.abstractUdivUrem result a b urem
  | .refine abs va vb => s.refineAbstractionValue abs va vb

def kind : AbstractionCall → AbstractionKind
  | .mul .. => .mul
  | .udivUrem _ _ _ urem => if urem then .urem else .udiv
  | .refine abs _ _ => abs.kind

def result : AbstractionCall → TermId
  | .mul result _ _ | .udivUrem result _ _ _ => result
  | .refine abs _ _ => abs.result

def a : AbstractionCall → TermId
  | .mul _ a _ | .udivUrem _ a _ _ => a
  | .refine abs _ _ => abs.a

def b : AbstractionCall → TermId
  | .mul _ _ b | .udivUrem _ _ b _ => b
  | .refine abs _ _ => abs.b

/-- A refinement is about a recorded abstraction and values that its operands can have. -/
def Fits (s : BvSolver) (width : Nat) : AbstractionCall → Prop
  | .mul .. | .udivUrem .. => True
  | .refine abs va vb => abs.width = width ∧ va < 2 ^ width ∧ vb < 2 ^ width ∧
      ∃ r, s.termToBv abs.result = some r

/-- The lemmas of the call contradict the exact result. -/
def Clash (k : ConstBits) (r a b : List Nat) (m : Assignment) : AbstractionCall → Prop
  | .udivUrem _ _ _ false => DivClash k r a b m
  | _ => False

/-- The circuit that the call runs once it has the bits of its terms. -/
def circuit (k : ConstBits) (r a b : List Nat) : AbstractionCall → Build Bool
  | .mul .. => abstractMulCircuit k r a b
  | .udivUrem _ _ _ urem => abstractUdivUremCircuit k urem r a b
  | .refine abs va vb => do
    valueLemmas (valueGuard va vb a b 0) (abs.exactValue va vb) r 0
    return true

section

variable {aimed : Prop} {known : Assignment → Prop} {st : Stage aimed known} {s : BvSolver}
  {k : ConstBits} {r a b : List Nat}

theorem circuit_builds (call : AbstractionCall) (hosts : Hosts k st)
    (lengthA : a.length = r.length) (lengthB : b.length = r.length) (has : st.Has r)
    (ha : st.Has a) (hb : st.Has b) (fits : call.Fits s r.length)
    (aim : st.Aims fun m => bitsVal m r =
      call.kind.number r.length (bitsVal m a) (bitsVal m b) ∧ ¬call.Clash k r a b m) :
    Builds st (call.circuit k r a b) fun _ st' => st'.Entails fun m => ¬call.Clash k r a b m := by
  cases call with
  | mul result _ _ =>
    exact (abstractMulCircuit_builds hosts lengthA lengthB has ha hb
      fun h m live => (aim h m live).1).imp fun _ _ _ _ _ _ clash => clash
  | udivUrem result _ _ urem =>
    cases urem with
    | false =>
      exact (abstractUdivUremCircuit_builds hosts lengthA lengthB has ha hb
        fun h m live => ⟨(aim h m live).1, fun _ => (aim h m live).2⟩).imp
          fun _ _ _ holds m live => holds m live rfl
    | true =>
      exact (abstractUdivUremCircuit_builds hosts lengthA lengthB has ha hb
        fun h m live => ⟨(aim h m live).1, fun impossible => (nomatch impossible)⟩).imp
          fun _ _ _ _ _ _ clash => clash
  | refine abs va vb =>
    obtain ⟨width, smallA, smallB, -⟩ := fits
    refine (valueLemmas_asserts (valueGuard_below ha hb) has fun h m live off => ?_).bind
      fun _ _ _ _ => .ret fun _ _ clash => clash
    -- The operands have the given values, and the result is the exact one.
    obtain ⟨valueA, valueB⟩ := (valueGuard_off (lengthA.trans lengthB.symm)).mp off
    rw [Nat.pow_zero, Nat.div_one, lengthA, Nat.mod_eq_of_lt smallA] at valueA
    rw [Nat.pow_zero, Nat.div_one, lengthB, Nat.mod_eq_of_lt smallB] at valueB
    rw [(aim h m live).1, valueA, valueB, Nat.pow_zero, Nat.div_one,
      abs.exactValue_eq (width ▸ smallA), width]
    exact (mod_eq_of_lt (abs.kind.number_lt smallA)).symm

end

section

variable {s : BvSolver} {call : AbstractionCall} {va vb r : BvVar} {width : Nat}

theorem local_clash (wf : s.WellFormed) (ha : s.termToBv call.a = some va)
    (hb : s.termToBv call.b = some vb) :
    Local s.sat.next fun m => call.Clash s.consts r.bits va.bits vb.bits m := by
  intro m m' agree
  have sameA : bitsVal m' va.bits = bitsVal m va.bits :=
    bitsVal_congr fun bit mem => agree bit (wf.bits_lt ha bit mem)
  have sameB : bitsVal m' vb.bits = bitsVal m vb.bits :=
    bitsVal_congr fun bit mem => agree bit (wf.bits_lt hb bit mem)
  cases call with
  | mul | refine => rfl
  | udivUrem result a b urem =>
    cases urem with
    | true => rfl
    | false => simp only [Clash, DivClash, sameA, sameB]

theorem word_eq_iff {kind : AbstractionKind} {r a b : List Nat} {width : Nat} {m : Assignment}
    (lengthR : r.length = width) (lengthA : a.length = width) (lengthB : b.length = width) :
    word width m r = kind.op.denote (word width m a) (word width m b) ↔
      bitsVal m r = kind.number width (bitsVal m a) (bitsVal m b) := by
  rw [← BitVec.toNat_inj, kind.toNat_denote, toNat_word lengthR, toNat_word lengthA,
    toNat_word lengthB]

theorem circuit_models (wf : s.WellFormed) (hr : s.termToBv call.result = some r)
    (ha : s.termToBv call.a = some va) (hb : s.termToBv call.b = some vb)
    (widthR : r.width = width) (widthA : va.width = width) (widthB : vb.width = width)
    (fits : call.Fits s width) :
    ∃ emitted, ((call.circuit s.consts r.bits va.bits vb.bits).run s.sat).2.clauses =
        s.sat.clauses ++ emitted ∧
      (∀ m, s.consts.Pinned m → Models m emitted → ¬call.Clash s.consts r.bits va.bits vb.bits m) ∧
      ∀ m, s.consts.Pinned m → word width m r.bits =
          call.kind.op.denote (word width m va.bits) (word width m vb.bits) →
        ¬call.Clash s.consts r.bits va.bits vb.bits m →
        ∃ m', AgreeBelow s.sat.next m m' ∧ s.consts.Pinned m' ∧ Models m' emitted := by
  subst widthR
  have lengthA : va.bits.length = r.bits.length := by rw [va.width_eq, widthA, r.width_eq]
  have lengthB : vb.bits.length = r.bits.length := by rw [vb.width_eq, widthB, r.width_eq]
  have equation := @BvSolver.local_equation s call.result call.a call.b r va vb r.width
    call.kind.op.denote wf hr ha hb
  have clash := @local_clash s call va vb r wf ha hb
  have isLocal : Local s.sat.next fun m =>
      word r.width m r.bits = call.kind.op.denote (word r.width m va.bits)
        (word r.width m vb.bits) ∧ ¬call.Clash s.consts r.bits va.bits vb.bits m := by
    intro m m' agree
    simp only [equation agree, clash agree]
  refine BvSolver.models_of_builds wf isLocal fun aimed => call.circuit_builds
    (BvSolver.start_hosts wf isLocal) lengthA lengthB (BvSolver.start_has wf isLocal hr)
    (BvSolver.start_has wf isLocal ha) (BvSolver.start_has wf isLocal hb)
    (r.width_eq.symm ▸ fits) fun h m live => ?_
  -- The wanted results are those of the operation on bit-vectors.
  obtain ⟨exact, clear⟩ := live.2.2 h
  refine ⟨?_, clear⟩
  rw [r.width_eq]
  exact (word_eq_iff r.width_eq (va.width_eq.trans widthA) (vb.width_eq.trans widthB)).mp exact

theorem run_eq (ha : s.termToBv call.a = some va) (hb : s.termToBv call.b = some vb)
    (same : va.width = vb.width) (fits : call.Fits s va.width)
    (widthR : (s.newBv call.result va.width).1.width = va.width) :
    (call.run s).2.sat = ((call.circuit (s.newBv call.result va.width).2.consts
        (s.newBv call.result va.width).1.bits va.bits vb.bits).run
          (s.newBv call.result va.width).2.sat).2 ∧
      (call.run s).2.termToBv = (s.newBv call.result va.width).2.termToBv := by
  -- An abstraction has operands of one width and a result of that width.
  have abstract {kind : AbstractionKind}
      {circuit : ConstBits → List Nat → List Nat → List Nat → Build Bool} {result a b : TermId}
      (ha : s.termToBv a = some va) (hb : s.termToBv b = some vb)
      (widthR : (s.newBv result va.width).1.width = va.width) :
      (BvSolver.abstractOp kind circuit s result a b).2.sat =
          ((circuit (s.newBv result va.width).2.consts (s.newBv result va.width).1.bits va.bits
            vb.bits).run (s.newBv result va.width).2.sat).2 ∧
        (BvSolver.abstractOp kind circuit s result a b).2.termToBv =
          (s.newBv result va.width).2.termToBv := by
    simp only [BvSolver.abstractOp, BvSolver.binopBits_eq ha hb same, BvSolver.resultBits_eq widthR]
    generalize (circuit (s.newBv result va.width).2.consts (s.newBv result va.width).1.bits
      va.bits vb.bits).run (s.newBv result va.width).2.sat = out
    obtain ⟨ok, sat⟩ := out
    cases ok <;> exact ⟨rfl, rfl⟩
  cases call with
  | mul result a b => exact abstract ha hb widthR
  | udivUrem result a b urem => exact abstract ha hb widthR
  | refine abs valueA valueB =>
    obtain ⟨width, -, -, r, hr⟩ := fits
    have old := BvSolver.newBv_of_some hr va.width
    dsimp only [result, a, b] at ha hb widthR ⊢
    rw [old] at widthR ⊢
    have widths : ¬(va.width ≠ abs.width ∨ vb.width ≠ abs.width ∨ r.width ≠ abs.width) := by
      rw [width, ← same, widthR]
      simp
    simp only [run, BvSolver.refineAbstractionValue, ha, hb, hr, if_neg widths]
    exact ⟨rfl, rfl⟩

/--
The exact results that the clauses of a call on an abstracted operator leave possible.

An assignment in which the result is exact extends to the clauses unless they clash.
They clash for unsigned division of zero by zero only, where the divisor has a signal and the
lowest result bits before a constant one are too many to agree with both lemmas.
Without result bits before the call this is so for every pair of operand values.
-/
theorem relaxes_iff (call : AbstractionCall) {s : BvSolver} (wf : s.WellFormed) {va vb : BvVar}
    (ha : s.termToBv call.a = some va) (hb : s.termToBv call.b = some vb)
    (same : va.width = vb.width) (fits : call.Fits s va.width)
    (resultFits : ∀ r, s.termToBv call.result = some r → r.width = va.width) :
    ∃ r emitted, (call.run s).2.termToBv call.result = some r ∧ r.width = va.width ∧
      (call.run s).2.sat.clauses = s.sat.clauses ++ emitted ∧
      (∀ m, s.consts.Pinned m → word va.width m r.bits =
          call.kind.op.denote (word va.width m va.bits) (word va.width m vb.bits) →
        ((∃ m', (∀ bit, bit < s.sat.next ∨ bit ∈ r.bits → m' bit = m bit) ∧
          s.consts.Pinned m' ∧ Models m' emitted) ↔
            ¬call.Clash s.consts r.bits va.bits vb.bits m)) ∧
      (s.termToBv call.result = none → ∀ m, s.consts.Pinned m →
        ((∃ m', AgreeBelow s.sat.next m m' ∧ s.consts.Pinned m' ∧ Models m' emitted ∧
          word va.width m' r.bits =
            call.kind.op.denote (word va.width m va.bits) (word va.width m vb.bits)) ↔
              ¬call.Clash s.consts r.bits va.bits vb.bits m)) := by
  have width_eq := BvSolver.newBv_width resultFits
  obtain ⟨satEq, termsEq⟩ := run_eq ha hb same fits width_eq
  have alloc := BvSolver.newBv_allocated wf call.result va.width
  have free := fun none m => @BvSolver.newBv_free s call.result va.width m wf none
  rw [satEq, termsEq]
  generalize s.newBv call.result va.width = pair at alloc width_eq free
  obtain ⟨r, mid⟩ := pair
  dsimp only at alloc width_eq free ⊢
  have fitsMid : call.Fits mid va.width := by
    cases call with
    | mul | udivUrem => trivial
    | refine abs valueA valueB =>
      obtain ⟨width, smallA, smallB, -⟩ := fits
      exact ⟨width, smallA, smallB, r, alloc.found⟩
  obtain ⟨emitted, clauses, sound, complete⟩ := circuit_models alloc.wf alloc.found
    (alloc.kept ha) (alloc.kept hb) width_eq rfl same.symm fitsMid
  rw [alloc.consts] at clauses sound complete
  rw [alloc.clauses] at clauses
  have clash : ∀ {m m'}, AgreeBelow s.sat.next m m' →
      (call.Clash s.consts r.bits va.bits vb.bits m' ↔
        call.Clash s.consts r.bits va.bits vb.bits m) :=
    fun agree => iff_of_eq (local_clash wf ha hb agree)
  rw [alloc.consts]
  refine ⟨r, emitted, alloc.found, width_eq, clauses, fun m pinned exact => ⟨?_, ?_⟩,
    fun none m pinned => ⟨?_, ?_⟩⟩
  · rintro ⟨m', agree, pinned', models⟩
    -- The operands have the same bits in both assignments.
    rw [← clash fun bit within => agree bit (.inl within)]
    exact sound m' pinned' models
  · intro clear
    obtain ⟨m', agree, pinned', models⟩ := complete m pinned exact clear
    exact ⟨m', fun bit known => agree bit (alloc.bit_lt known), pinned', models⟩
  · rintro ⟨m', agree, pinned', models, -⟩
    rw [← clash agree]
    exact sound m' pinned' models
  · intro clear
    -- The fresh bits take the exact value.
    obtain ⟨m₁, agree₁, pinned₁, exact⟩ := free none m pinned
      (call.kind.op.denote (word va.width m va.bits) (word va.width m vb.bits))
    obtain ⟨m', agree, pinned', models⟩ := complete m₁ pinned₁
      (by rw [exact, BvSolver.word_agree wf ha agree₁, BvSolver.word_agree wf hb agree₁])
      (by rwa [clash agree₁])
    exact ⟨m', agree₁.trans (agree.mono alloc.next_le), pinned', models,
      (BvSolver.word_agree alloc.wf alloc.found agree).trans exact⟩

end

/-- Zero divided by one fresh operand has its exact result, which is not one of the clash. -/
theorem remainder_relaxes : ∃ va vb r emitted,
    (run (BvSolver.withOperands 4) (.udivUrem 2 0 1 true)).2.termToBv 2 = some r ∧
      (BvSolver.withOperands 4).termToBv 0 = some va ∧
      (BvSolver.withOperands 4).termToBv 1 = some vb ∧
      ∀ m, (BvSolver.withOperands 4).consts.Pinned m →
        ∃ m', AgreeBelow (BvSolver.withOperands 4).sat.next m m' ∧ Models m' emitted ∧
          word 4 m' r.bits = BitVec.umod (word 4 m va.bits) (word 4 m vb.bits) := by
  have spec := BvSolver.withOperands_spec 4
  generalize BvSolver.withOperands 4 = s at spec ⊢
  obtain ⟨wf, ⟨va, ha, widthA⟩, ⟨vb, hb, widthB⟩, none⟩ := spec
  obtain ⟨r, emitted, found, -, -, -, fresh⟩ := relaxes_iff (.udivUrem 2 0 1 true) wf ha hb
    (widthA.trans widthB.symm) trivial (fun r found => by
      rw [show AbstractionCall.result (.udivUrem 2 0 1 true) = 2 from rfl, none] at found
      cases found)
  rw [widthA] at fresh
  refine ⟨va, vb, r, emitted, found, ha, hb, fun m pinned => ?_⟩
  obtain ⟨m', agree, -, models, exact⟩ := (fresh none m pinned).mpr fun clash => clash
  exact ⟨m', agree, models, exact⟩

/-- No model of the lemmas of a division of two fresh bits has both bits off. -/
theorem zero_by_zero_excluded : ∃ va vb, (BvSolver.withOperands 1).termToBv 0 = some va ∧
      (BvSolver.withOperands 1).termToBv 1 = some vb ∧
      (run (BvSolver.withOperands 1) (.udivUrem 2 0 1 false)).1 = true ∧
      ¬∃ m, Models m (run (BvSolver.withOperands 1) (.udivUrem 2 0 1 false)).2.sat.clauses ∧
        word 1 m va.bits = 0 ∧ word 1 m vb.bits = 0 := by
  refine ⟨⟨[2], 1, rfl⟩, ⟨[3], 1, rfl⟩, rfl, rfl, by decide +kernel, ?_⟩
  rintro ⟨m, models, zeroA, zeroB⟩
  have offA : m 2 = false := by
    have number := congrArg BitVec.toNat zeroA
    rw [@toNat_word 1 [2] rfl m] at number
    simpa using number
  have offB : m 3 = false := by
    have number := congrArg BitVec.toNat zeroB
    rw [@toNat_word 1 [3] rfl m] at number
    simpa using number
  -- Both zero detectors are on, so the result bit is on and off.
  have zeroDetectB : m 5 = true := by
    have := models [.pos 5, .pos 3] (by decide +kernel)
    simpa [Satisfies, offB] using this
  have zeroDetectA : m 6 = true := by
    have := models [.pos 6, .pos 2] (by decide +kernel)
    simpa [Satisfies, offA] using this
  have on : m 4 = true := by
    have := models [.neg 5, .pos 4] (by decide +kernel)
    simpa [Satisfies, zeroDetectB] using this
  have off := models [.neg 6, .neg 5, .neg 4] (by decide +kernel)
  simp [Satisfies, zeroDetectA, zeroDetectB, on] at off

end AbstractionCall

end Nixie.Bv
