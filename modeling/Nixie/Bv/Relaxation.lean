import Nixie.Bv.Abstraction

/-! What the lemmas of an abstraction leave of the exact results. -/

namespace Nixie.Bv

open Netlist List Nat

namespace Circuit

def leadingSignals (k : ConstBits) (r : List Nat) : List Nat := r.takeWhile (isSignal k)

variable {aimed : Prop} {known : Assignment → Prop} {s s' : Stage aimed known}
  {k : ConstBits} {a b r : List Nat} {m : Assignment}

theorem leadingSignals_getElem? {j mBit : Nat} (found : (leadingSignals k r)[j]? = some mBit) :
    r[j]? = some mBit := by
  obtain ⟨rest, same⟩ : leadingSignals k r <+: r := takeWhile_prefix _
  obtain ⟨within, -⟩ := List.getElem?_eq_some_iff.mp found
  rw [← same, getElem?_append_left within]
  exact found

theorem bit_eq_testBit (m : Assignment) {bits : List Nat} {j bit : Nat}
    (found : bits[j]? = some bit) :
    m bit = (bitsVal m bits).testBit j := by
  obtain ⟨within, rfl⟩ := List.getElem?_eq_some_iff.mp found
  exact (testBit_bitsVal j within).symm

theorem eachResultBit_builds {emit : Nat → Nat → Build Unit}
    {claim : Nat → Nat → Assignment → Prop} {idx : Nat}
    (each : ∀ j mBit, (leadingSignals k r)[j]? = some mBit → ∀ s' : Stage aimed known,
      Extends s s' → Asserts s' (emit (idx + j) mBit) (claim (idx + j) mBit))
    (aim : s.Aims fun m => ∀ j mBit, (leadingSignals k r)[j]? = some mBit →
      claim (idx + j) mBit m) :
    Builds s (eachResultBit k emit r idx) fun _ s' => s'.Entails fun m =>
      ∀ j mBit, (leadingSignals k r)[j]? = some mBit → claim (idx + j) mBit m := by
  induction r generalizing s idx with
  | nil => exact .ret fun m _ j mBit found => (nomatch found)
  | cons bit rest ih =>
    cases signal : isSignal k bit with
    | false =>
      -- A constant bit ends the loop.
      have nothing : leadingSignals k (bit :: rest) = [] := by
        simp [leadingSignals, signal]
      simp only [nothing]
      unfold eachResultBit
      cases same : sig k bit with
      | true | false => exact .ret fun m _ j mBit found => (nomatch found)
      | var v => simp [isSignal, same, Sig.isVar] at signal
    | true =>
      have first : leadingSignals k (bit :: rest) = bit :: leadingSignals k rest := by
        simp [leadingSignals, signal]
      simp only [first] at each aim ⊢
      unfold eachResultBit
      rw [sig_of_isSignal signal]
      refine (each 0 bit rfl s (.refl s) fun h m live => aim h m live 0 bit rfl).bind
        fun _ s₁ step₁ holds => ?_
      -- The others are counted from the next position on.
      have shift : ∀ j, idx + 1 + j = idx + (j + 1) := fun j => by omega
      refine (@ih s₁ (idx + 1) (fun j mBit found s' step => ?_) fun h m live j mBit found => ?_).imp
        fun _ s₂ step₂ rest m live j mBit found => ?_
      · rw [shift]
        exact each (j + 1) mBit found s' (step₁.trans step)
      · rw [shift]
        exact aim.later step₁ h m live (j + 1) mBit found
      · cases j with
        | zero =>
          obtain rfl := Option.some.inj found
          exact holds m (step₂.narrows m live)
        | succ j =>
          have later := rest m live j mBit found
          rwa [shift] at later

/-- What the lemmas of a multiplication say of one result bit. -/
structure MulBit (a b r : List Nat) (mBit : Nat) (m : Assignment) : Prop where
  zeroLeft : bitsVal m a = 0 → m mBit = false
  zeroRight : bitsVal m b = 0 → m mBit = false
  oneLeft : bitsVal m a = 1 → ∀ bit ∈ b[r.idxOf mBit]?, m mBit = m bit
  oneRight : bitsVal m b = 1 → ∀ bit ∈ a[r.idxOf mBit]?, m mBit = m bit

theorem Stage.Has.getElem? {bits : List Nat} (has : s.Has bits) (i : Nat) :
    ∀ bit ∈ bits[i]?, bit < s.list.next :=
  fun bit mem => has bit (mem_of_getElem? mem)

theorem mulBitLemmas_asserts {zeroA zeroB oneA oneB : Sig} {mBit : Nat}
    (hzeroA : Means s zeroA fun m => decide (bitsVal m a = 0))
    (hzeroB : Means s zeroB fun m => decide (bitsVal m b = 0))
    (honeA : Means s oneA fun m => decide (bitsVal m a = 1))
    (honeB : Means s oneB fun m => decide (bitsVal m b = 1))
    (ha : s.Has a) (hb : s.Has b) (hm : mBit < s.list.next) :
    Asserts s (mulBitLemmas zeroA zeroB oneA oneB a b r mBit) (MulBit a b r mBit) := by
  have off {s' : Stage aimed known} (step : Extends s s') :
      ∀ lit ∈ [Lit.neg mBit], lit.var < s'.list.next := by
    simp [step.lt hm]
  refine ((guarded_asserts hzeroA (off (.refl s))).seq fun s₁ step₁ =>
    (guarded_asserts (hzeroB.later step₁) (off step₁)).seq fun s₂ step₂ =>
    (guardedCopy_asserts ((honeA.later step₁).later step₂) ((step₁.trans step₂).lt hm)
      (Stage.Has.getElem? (hb.later (step₁.trans step₂)) _)).seq fun s₃ step₃ =>
    guardedCopy_asserts (honeB.later ((step₁.trans step₂).trans step₃))
      (((step₁.trans step₂).trans step₃).lt hm)
      (Stage.Has.getElem? (ha.later ((step₁.trans step₂).trans step₃)) _)).congr fun m _ => ?_
  simp only [decide_eq_true_eq, Satisfies, mem_singleton, exists_eq_left, Lit.holds_neg]
  exact ⟨fun ⟨p, q, u, v⟩ => ⟨p, q, u, v⟩, fun ⟨p, q, u, v⟩ => ⟨p, q, u, v⟩⟩

theorem mulBit_of_exact {mBit : Nat} (lengthA : a.length = r.length)
    (lengthB : b.length = r.length) (mem : mBit ∈ r)
    (exact : bitsVal m r = bitsVal m a * bitsVal m b % 2 ^ r.length) : MulBit a b r mBit m := by
  have small : ∀ {bits : List Nat}, bits.length = r.length → bitsVal m bits < 2 ^ r.length :=
    fun length => length ▸ bitsVal_lt _
  have found : r[r.idxOf mBit]? = some mBit := by
    rw [getElem?_eq_getElem (idxOf_lt_length_of_mem mem), getElem_idxOf]
  have digit := bit_eq_testBit m found
  rw [exact] at digit
  constructor
  · intro zero
    rw [digit, zero, zero_mul, zero_mod, zero_testBit]
  · intro zero
    rw [digit, zero, mul_zero, zero_mod, zero_testBit]
  · intro one bit lies
    rw [digit, one, one_mul, mod_eq_of_lt (small lengthB), bit_eq_testBit m lies]
  · intro one bit lies
    rw [digit, one, mul_one, mod_eq_of_lt (small lengthA), bit_eq_testBit m lies]

theorem abstractMulCircuit_builds (hosts : Hosts k s) (lengthA : a.length = r.length)
    (lengthB : b.length = r.length) (has : s.Has r) (ha : s.Has a) (hb : s.Has b)
    (aim : s.Aims fun m => bitsVal m r = bitsVal m a * bitsVal m b % 2 ^ r.length) :
    Builds s (abstractMulCircuit k r a b) fun _ _ => True := by
  refine (zeroDetect_builds hosts ha).bind fun zeroA s₁ step₁ hzeroA => ?_
  refine (zeroDetect_builds (hosts.later step₁) (hb.later step₁)).bind
    fun zeroB s₂ step₂ hzeroB => ?_
  have upTo₂ := step₁.trans step₂
  refine (oneDetect_builds (hosts.later upTo₂) (ha.later upTo₂)).bind
    fun oneA s₃ step₃ honeA => ?_
  have upTo₃ := upTo₂.trans step₃
  refine (oneDetect_builds (hosts.later upTo₃) (hb.later upTo₃)).bind
    fun oneB s₄ step₄ honeB => ?_
  have upTo := upTo₃.trans step₄
  refine (@eachResultBit_builds _ _ s₄ k r _ (fun _ mBit m => MulBit a b r mBit m) 0
    (fun j mBit found s' step => ?_) fun h m live j mBit found => ?_).imp fun _ _ _ _ => trivial
  · have all := upTo.trans step
    exact mulBitLemmas_asserts (hzeroA.later (step₂.trans (step₃.trans (step₄.trans step))))
      (hzeroB.later (step₃.trans (step₄.trans step))) (honeA.later (step₄.trans step))
      (honeB.later step) (ha.later all) (hb.later all)
      ((has.later all) mBit (mem_of_getElem? (leadingSignals_getElem? found)))
  · exact mulBit_of_exact lengthA lengthB
      (mem_of_getElem? (leadingSignals_getElem? found)) (aim.later upTo h m live)

def divExact (urem : Bool) (width x y : Nat) : Nat :=
  if urem then x % y else if y = 0 then 2 ^ width - 1 else x / y

/--
Zero divided by zero where the lemmas for other divisors apply to it.

Their guard is the zero detector of the divisor itself instead of its negation.
Only detectors that did not fold guard a clause, and only result bits before a constant one get any.
-/
def DivClash (k : ConstBits) (r a b : List Nat) (m : Assignment) : Prop :=
  bitsVal m a = 0 ∧ bitsVal m b = 0 ∧ (∃ bit ∈ b, isSignal k bit = true) ∧
    ((∃ bit ∈ a, isSignal k bit = true) ∧ 1 ≤ (leadingSignals k r).length ∨
      2 ≤ (leadingSignals k r).length)

/-- What the lemmas of a division say of one result bit. -/
structure DivBit (urem : Bool) (zeroA zeroB eqAB : Sig) (a b : List Nat) (idx mBit : Nat)
    (m : Assignment) : Prop where
  byZero : bitsVal m b = 0 → if urem then ∀ bit ∈ a[idx]?, m mBit = m bit else m mBit = true
  byOne : bitsVal m b = 1 → if urem then m mBit = false else ∀ bit ∈ a[idx]?, m mBit = m bit
  ofZero : Sig.PairActive m zeroA zeroB → m mBit = false
  bySelf : Sig.PairActive m eqAB zeroB → m mBit = (!urem && idx == 0)

theorem divBitLemmas_asserts {urem : Bool} {zeroA zeroB oneB eqAB : Sig} {idx mBit : Nat}
    (hzeroA : zeroA.Below s.list.next) (hzeroB : Means s zeroB fun m => decide (bitsVal m b = 0))
    (honeB : Means s oneB fun m => decide (bitsVal m b = 1)) (heqAB : eqAB.Below s.list.next)
    (ha : s.Has a) (hm : mBit < s.list.next) :
    Asserts s (divBitLemmas urem zeroA zeroB oneB eqAB a idx mBit)
      (DivBit urem zeroA zeroB eqAB a b idx mBit) := by
  have within {s' : Stage aimed known} (step : Extends s s') : mBit < s'.list.next := step.lt hm
  have pair {s₂ : Stage aimed known} (step : Extends s s₂) :=
    (@guardedPair_asserts _ _ s₂ zeroA zeroB (.neg mBit) (hzeroA.mono step.next_le)
      (hzeroB.below.mono step.next_le) (within step)).seq fun s₃ step₃ =>
      @guardedPair_asserts _ _ s₃ eqAB zeroB (target mBit (!urem && idx == 0))
        (heqAB.mono (step.trans step₃).next_le) (hzeroB.below.mono (step.trans step₃).next_le)
        (by rw [target_var]; exact within (step.trans step₃))
  have copy {s' : Stage aimed known} (step : Extends s s') {guard : Sig} {f : Assignment → Bool}
      (hguard : Means s guard f) :=
    guardedCopy_asserts (hguard.later step) (within step)
      (Stage.Has.getElem? (ha.later step) idx)
  have force {s' : Stage aimed known} (step : Extends s s') {guard : Sig} {f : Assignment → Bool}
      (hguard : Means s guard f) (lit : Lit) (var : lit.var = mBit) :=
    @guarded_asserts _ _ _ _ _ [lit] (hguard.later step) (by simpa [var] using within step)
  unfold divBitLemmas
  cases urem with
  | true =>
    refine ((copy (.refl s) hzeroB).seq fun s₁ step₁ => (force step₁ honeB (.neg mBit) rfl).seq
      fun s₂ step₂ => pair (step₁.trans step₂)).congr fun m _ => ?_
    simp only [decide_eq_true_eq, Satisfies, mem_singleton, exists_eq_left, Lit.holds_neg,
      target_holds]
    constructor <;>
    · rintro ⟨p, q, u, v⟩
      exact ⟨p, q, u, v⟩
  | false =>
    refine ((force (.refl s) hzeroB (.pos mBit) rfl).seq fun s₁ step₁ => (copy step₁ honeB).seq
      fun s₂ step₂ => pair (step₁.trans step₂)).congr fun m _ => ?_
    simp only [decide_eq_true_eq, Satisfies, mem_singleton, exists_eq_left, Lit.holds_neg,
      Lit.holds_pos, target_holds]
    constructor <;>
    · rintro ⟨p, q, u, v⟩
      exact ⟨p, q, u, v⟩

theorem pairActive_cases {d z : Sig} (active : Sig.PairActive m d z) :
    d.value m = true ∧ (z.value m = true ∧ d.isVar = true ∧ z.isVar = true ∨ z.value m = false) := by
  cases d with
  | false => cases z <;> exact active.elim
  | true =>
    cases z with
    | false => exact ⟨rfl, .inr rfl⟩
    | true | var z => exact active.elim
  | var d =>
    cases z with
    | true | false => exact active.elim
    | var z => exact ⟨active.1, .inl ⟨active.2, rfl, rfl⟩⟩

theorem pairActive_of_on {d z : Sig} (on : d.value m = true) (on' : z.value m = true)
    (open_ : d ≠ .true) (open' : z ≠ .true) : Sig.PairActive m d z := by
  cases d with
  | true => exact absurd rfl open_
  | false => cases on
  | var d =>
    cases z with
    | true => exact absurd rfl open'
    | false => cases on'
    | var z => exact ⟨on, on'⟩

/-- What the folded shape of a zero detector tells of its word. -/
structure FoldsOn (k : ConstBits) (bits : List Nat) (z : Sig) : Prop where
  signal_of_isVar : z.isVar = true → ∃ bit ∈ bits, isSignal k bit = true
  ne_true : (∃ bit ∈ bits, isSignal k bit = true) → z ≠ .true

theorem zeroDetect_foldsOn (bits : List Nat) (list : Netlist) :
    FoldsOn k bits ((zeroDetect k bits).run list).1 where
  signal_of_isVar := by
    intro open_
    rcases isVar_of_clearDetect open_ with start | signal
    · cases start
    · exact signal
  ne_true := by
    rintro ⟨bit, mem, signal⟩ on
    rw [isSignal, (clearDetect_eq_true on).2 bit mem] at signal
    cases signal

/-- An equality that folded to true has signals on both sides where it has one on the right. -/
def FoldsApart (k : ConstBits) (a b : List Nat) (z : Sig) : Prop :=
  (∃ bit ∈ b, isSignal k bit = true) → z = .true → ∃ bit ∈ a, isSignal k bit = true

theorem eqDetect_foldsApart (length : a.length = b.length) (list : Netlist) :
    FoldsApart k a b ((eqDetect k a b .true).run list).1 :=
  fun signal on => eqDetect_eq_true length on signal

section

variable {urem : Bool} {zeroA zeroB oneB eqAB : Sig} {j mBit : Nat}

theorem divBit_of_exact (_lengthA : a.length = r.length)
    (valueA : zeroA.value m = decide (bitsVal m a = 0))
    (valueB : zeroB.value m = decide (bitsVal m b = 0))
    (valueE : eqAB.value m = decide (bitsVal m a = bitsVal m b))
    (foldsA : FoldsOn k a zeroA) (foldsB : FoldsOn k b zeroB)
    (exact : bitsVal m r = divExact urem r.length (bitsVal m a) (bitsVal m b))
    (clear : urem = false → ¬DivClash k r a b m)
    (found : (leadingSignals k r)[j]? = some mBit) :
    DivBit urem zeroA zeroB eqAB a b j mBit m := by
  have digit := bit_eq_testBit m (leadingSignals_getElem? found)
  obtain ⟨within, -⟩ := List.getElem?_eq_some_iff.mp found
  obtain ⟨lies, -⟩ := List.getElem?_eq_some_iff.mp (leadingSignals_getElem? found)
  rw [exact] at digit
  constructor
  · intro zero
    cases urem with
    | true =>
      intro bit mem
      rw [digit, bit_eq_testBit m mem, divExact, if_pos rfl, zero, mod_zero]
    | false =>
      show m mBit = true
      rw [digit, divExact, if_neg Bool.false_ne_true, if_pos zero, testBit_two_pow_sub_one,
        decide_eq_true lies]
  · intro one
    cases urem with
    | true =>
      show m mBit = false
      rw [digit, divExact, if_pos rfl, one, mod_one, zero_testBit]
    | false =>
      intro bit mem
      rw [digit, bit_eq_testBit m mem, divExact, if_neg Bool.false_ne_true, one,
        if_neg Nat.one_ne_zero, Nat.div_one]
  · intro active
    obtain ⟨on, both⟩ := pairActive_cases active
    have zeroLeft : bitsVal m a = 0 := of_decide_eq_true (valueA.symm.trans on)
    rw [zeroLeft] at digit
    cases urem with
    | true => rw [digit, divExact, if_pos rfl, zero_mod, zero_testBit]
    | false =>
      rcases both with ⟨on', openA, openB⟩ | off
      · -- The divisor is zero too, so this is the clash.
        have zeroRight : bitsVal m b = 0 := of_decide_eq_true (valueB.symm.trans on')
        exact absurd ⟨zeroLeft, zeroRight, foldsB.signal_of_isVar openB,
          .inl ⟨foldsA.signal_of_isVar openA, by omega⟩⟩ (clear rfl)
      · have pos : bitsVal m b ≠ 0 := of_decide_eq_false (valueB.symm.trans off)
        rw [digit, divExact, if_neg Bool.false_ne_true, if_neg pos, Nat.zero_div, Nat.zero_testBit]
  · intro active
    obtain ⟨on, both⟩ := pairActive_cases active
    have same : bitsVal m a = bitsVal m b := of_decide_eq_true (valueE.symm.trans on)
    rw [same] at digit
    cases urem with
    | true =>
      show m mBit = false
      rw [digit, divExact, if_pos rfl, mod_self, zero_testBit]
    | false =>
      rcases both with ⟨on', -, openB⟩ | off
      · have zeroRight : bitsVal m b = 0 := of_decide_eq_true (valueB.symm.trans on')
        -- Above the lowest bit this is the clash.
        have lowest : j = 0 := by
          by_contra above
          exact clear rfl ⟨same.trans zeroRight, zeroRight, foldsB.signal_of_isVar openB,
            .inr (by omega)⟩
        subst lowest
        rw [digit, divExact, if_neg Bool.false_ne_true, if_pos zeroRight,
          testBit_two_pow_sub_one, decide_eq_true lies]
        rfl
      · have pos : bitsVal m b ≠ 0 := of_decide_eq_false (valueB.symm.trans off)
        rw [digit, divExact, if_neg Bool.false_ne_true, if_neg pos,
          Nat.div_self (Nat.pos_of_ne_zero pos), Bool.eq_iff_iff,
          testBit_one_eq_true_iff_self_eq_zero]
        simp

theorem not_divClash (_length : a.length = b.length)
    (valueA : zeroA.value m = decide (bitsVal m a = 0))
    (valueB : zeroB.value m = decide (bitsVal m b = 0))
    (valueE : eqAB.value m = decide (bitsVal m a = bitsVal m b))
    (foldsA : FoldsOn k a zeroA) (foldsB : FoldsOn k b zeroB)
    (foldsE : FoldsApart k a b eqAB)
    (met : ∀ j mBit, (leadingSignals k r)[j]? = some mBit →
      DivBit false zeroA zeroB eqAB a b j mBit m) : ¬DivClash k r a b m := by
  rintro ⟨zeroLeft, zeroRight, signalB, stuck⟩
  have onA : zeroA.value m = true := valueA.trans (decide_eq_true zeroLeft)
  have onB : zeroB.value m = true := valueB.trans (decide_eq_true zeroRight)
  have onE : eqAB.value m = true := valueE.trans (decide_eq_true (zeroLeft.trans zeroRight.symm))
  have openB := foldsB.ne_true signalB
  -- A signal in the dividend makes the lowest result bit both on and off.
  have noSignal : 1 ≤ (leadingSignals k r).length → ¬∃ bit ∈ a, isSignal k bit = true := by
    intro first signalA
    have bit := met 0 _ (getElem?_eq_getElem first)
    have on := bit.byZero zeroRight
    rw [bit.ofZero (pairActive_of_on onA onB (foldsA.ne_true signalA) openB)] at on
    cases on
  rcases stuck with ⟨signalA, first⟩ | second
  · exact noSignal first signalA
  · -- Without one, equality did not fold, and the next result bit is both on and off.
    have bit := met 1 _ (getElem?_eq_getElem second)
    have openE : eqAB ≠ .true := fun folded => noSignal (by omega) (foldsE signalB folded)
    have on := bit.byZero zeroRight
    rw [bit.bySelf (pairActive_of_on onE onB openE openB)] at on
    cases on

end

theorem abstractUdivUremCircuit_builds {urem : Bool} (hosts : Hosts k s)
    (lengthA : a.length = r.length) (lengthB : b.length = r.length) (has : s.Has r)
    (ha : s.Has a) (hb : s.Has b)
    (aim : s.Aims fun m => bitsVal m r = divExact urem r.length (bitsVal m a) (bitsVal m b) ∧
      (urem = false → ¬DivClash k r a b m)) :
    Builds s (abstractUdivUremCircuit k urem r a b) fun _ s' => s'.Entails fun m =>
      urem = false → ¬DivClash k r a b m := by
  have length : a.length = b.length := lengthA.trans lengthB.symm
  have start : Means s .true fun _ => true := .isTrue fun _ _ => rfl
  refine ((zeroDetect_builds hosts hb).returns (zeroDetect_foldsOn b _)).bind
    fun zeroB s₁ step₁ ⟨hzeroB, foldsB⟩ => ?_
  refine (oneDetect_builds (hosts.later step₁) (hb.later step₁)).bind
    fun oneB s₂ step₂ honeB => ?_
  have upTo₂ := step₁.trans step₂
  refine ((zeroDetect_builds (hosts.later upTo₂) (ha.later upTo₂)).returns
    (zeroDetect_foldsOn a _)).bind fun zeroA s₃ step₃ ⟨hzeroA, foldsA⟩ => ?_
  have upTo₃ := upTo₂.trans step₃
  refine ((eqDetect_builds (hosts.later upTo₃) length (ha.later upTo₃) (hb.later upTo₃)
    (start.later upTo₃)).returns (eqDetect_foldsApart length _)).bind
      fun eqAB s₄ step₄ ⟨heqAB, foldsE⟩ => ?_
  have upTo := upTo₃.trans step₄
  -- The values of the detectors in every assignment that is counted from here on.
  have values : ∀ m, s₄.Live m → zeroA.value m = decide (bitsVal m a = 0) ∧
      zeroB.value m = decide (bitsVal m b = 0) ∧
      eqAB.value m = decide (bitsVal m a = bitsVal m b) := fun m live =>
    ⟨(hzeroA.later step₄).value m live,
      (hzeroB.later (step₂.trans (step₃.trans step₄))).value m live,
      (heqAB.value m live).trans (Bool.true_and _)⟩
  refine (@eachResultBit_builds _ _ s₄ k r _
    (fun idx mBit m => DivBit urem zeroA zeroB eqAB a b idx mBit m) 0
    (fun j mBit found s' step => ?_) fun h m live j mBit found => ?_).imp
      fun _ s₅ step₅ met m live exact => ?_
  · have all := upTo.trans step
    exact divBitLemmas_asserts (hzeroA.below.mono (step₄.trans step).next_le)
      (hzeroB.later (step₂.trans (step₃.trans (step₄.trans step))))
      (honeB.later (step₃.trans (step₄.trans step))) (heqAB.below.mono step.next_le)
      (ha.later all) ((has.later all) mBit (mem_of_getElem? (leadingSignals_getElem? found)))
  · obtain ⟨valueA, valueB, valueE⟩ := values m live
    obtain ⟨exact, clear⟩ := aim.later upTo h m live
    rw [zero_add]
    exact divBit_of_exact lengthA valueA valueB valueE foldsA foldsB exact clear found
  · obtain ⟨valueA, valueB, valueE⟩ := values m (step₅.narrows m live)
    subst exact
    refine not_divClash length valueA valueB valueE foldsA foldsB foldsE fun j mBit found => ?_
    have bit := met m live j mBit found
    rwa [zero_add] at bit

end Circuit

end Nixie.Bv
