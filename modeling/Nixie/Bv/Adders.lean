import Nixie.Bv.GateLaws

/-! Adders, comparison, and negation of words, and what their outputs count. -/

namespace Nixie.Bv.Circuit

open Netlist

section

variable (k : ConstBits)

/-- Ripple the carry through full adders from the lowest bit, wiring the sums to the outputs. -/
def ripple : List Nat → List Sig → List Sig → Sig → Build Sig
  | out :: outs, x :: xs, y :: ys, carry => do
    let (sum, next) ← gateFullAdder x y carry
    wire out sum
    ripple outs xs ys next
  | _, _, _, carry => return carry

def encodeAdderCarry (result a b : List Nat) : Build Sig :=
  ripple result (a.map (sig k)) (b.map (sig k)) .false

/-- The lower bits decide the comparison where the higher bits are equal. -/
def ultFrom : List Nat → List Nat → Sig → Build Sig
  | a :: as, b :: bs, ltPrev => do
    let ltAt ← gateAndNotA (sig k a) (sig k b)
    let eq ← gateXnor (sig k a) (sig k b)
    let carryPrev ← gateAnd eq ltPrev
    let ltNext ← gateOr ltAt carryPrev
    ultFrom as bs ltNext
  | _, _, ltPrev => return ltPrev

/-- The result says that the first word is less than the second. -/
def encodeUltResult (a b : List Nat) (result : Nat) : Build Unit :=
  match a, b with
  | a₀ :: as, b₀ :: bs => do
    let lt₀ ← gateAndNotA (sig k a₀) (sig k b₀)
    let lt ← ultFrom k as bs lt₀
    wire result lt
  -- Zero is not less than zero.
  | _, _ => addClause [.neg result]

/-- The signals among the bits, unless a bit is constantly on. -/
def signals : List Nat → Option (List Nat)
  | [] => some []
  | bit :: bits =>
    match sig k bit with
    | .true => none
    | .false => signals bits
    | .var v => (signals bits).map (v :: ·)

def encodeAllZero (out : Nat) (bits : List Nat) : Build Unit :=
  match signals k bits with
  | none => addClause [.neg out]
  | some [] => addClause [.pos out]
  | some free => do
    free.forM fun bit => addClause [.neg out, .neg bit]
    addClause (.pos out :: free.map .pos)

def gateNots : List Nat → Build (List Sig)
  | [] => return []
  | bit :: bits => do
    let nb ← gateNot (sig k bit)
    let rest ← gateNots bits
    return nb :: rest

def encodeTwoComplement (result a : List Nat) : Build Unit := do
  let notA ← gateNots k a
  let _ ← ripple result notA (notA.map fun _ => .false) .true

def encodeMuxes (sel : Nat) : List Nat → List Nat → List Nat → Build Unit
  | out :: outs, t :: ts, e :: es => do
    encodeMux k out sel t e
    encodeMuxes sel outs ts es
  | _, _, _ => return ()

def encodeWordEq : List Nat → List Nat → Build Unit
  | a :: as, b :: bs => do
    encodeBitEq k a b
    encodeWordEq as bs
  | _, _ => return ()

end

variable {aimed : Prop} {known : Assignment → Prop} {s s' : Stage aimed known} {k : ConstBits}

def Carried (s : Stage aimed known) (bits : List Sig) : Prop := ∀ z ∈ bits, z.Below s.list.next

theorem Carried.later {bits : List Sig} (carried : Carried s bits) (step : Extends s s') :
    Carried s' bits :=
  fun z mem => (carried z mem).mono step.next_le

theorem carried_cons {z : Sig} {bits : List Sig} :
    Carried s (z :: bits) ↔ z.Below s.list.next ∧ Carried s bits := List.forall_mem_cons

theorem carried_sigs {vars : List Nat} (has : s.Has vars) : Carried s (vars.map (sig k)) := by
  intro z mem
  obtain ⟨v, lies, rfl⟩ := List.mem_map.mp mem
  exact sig_below (has v lies)

theorem bitsVal_sigs {m : Assignment} (pinned : k.Pinned m) (vars : List Nat) :
    bitsVal (Sig.value m) (vars.map (sig k)) = bitsVal m vars := by
  rw [bitsVal_map]
  exact bitsVal_congr fun v _ => sig_value pinned v

theorem ripple_builds {outs : List Nat} {xs ys : List Sig} {carry : Sig}
    (lengthX : xs.length = outs.length) (lengthY : ys.length = outs.length)
    (has : s.Has outs) (hx : Carried s xs) (hy : Carried s ys) (hc : carry.Below s.list.next)
    (aim : s.Aims fun m => bitsVal m outs =
      (bitsVal (Sig.value m) xs + bitsVal (Sig.value m) ys + (carry.value m).toNat) %
        2 ^ outs.length) :
    Builds s (ripple outs xs ys carry) fun c s' => c.Below s'.list.next ∧ s'.Entails fun m =>
      bitsVal m outs + 2 ^ outs.length * (c.value m).toNat =
        bitsVal (Sig.value m) xs + bitsVal (Sig.value m) ys + (carry.value m).toNat := by
  induction outs generalizing s xs ys carry with
  | nil =>
    obtain rfl : xs = [] := List.length_eq_zero_iff.mp lengthX
    obtain rfl : ys = [] := List.length_eq_zero_iff.mp lengthY
    exact .ret ⟨hc, fun m _ => by simp⟩
  | cons out outs ih =>
    cases xs with
    | nil => simp at lengthX
    | cons x xs =>
      cases ys with
      | nil => simp at lengthY
      | cons y ys =>
        obtain ⟨hout, has⟩ := Stage.has_cons.mp has
        obtain ⟨hx₀, hx⟩ := carried_cons.mp hx
        obtain ⟨hy₀, hy⟩ := carried_cons.mp hy
        refine (gateFullAdder_builds (.self hx₀) (.self hy₀) (.self hc)).bind
          fun r s₁ step₁ ⟨hsum, hnext⟩ => ?_
        -- The full adder turns the lowest bits into the sum and twice the next carry.
        have count : ∀ m, s₁.Live m →
            bitsVal (Sig.value m) (x :: xs) + bitsVal (Sig.value m) (y :: ys) +
              (carry.value m).toNat =
            (r.1.value m).toNat + 2 * (bitsVal (Sig.value m) xs + bitsVal (Sig.value m) ys +
              (r.2.value m).toNat) := by
          intro m live
          have adder := fullAdder_count (x.value m) (y.value m) (carry.value m)
          rw [← hsum.value m live, ← hnext.value m live] at adder
          rw [bitsVal_cons, bitsVal_cons]
          omega
        have wanted : s₁.Aims fun m => m out = r.1.value m ∧ bitsVal m outs =
            (bitsVal (Sig.value m) xs + bitsVal (Sig.value m) ys + (r.2.value m).toNat) %
              2 ^ outs.length := by
          intro h m live
          have whole := aim.later step₁ h m live
          dsimp only at whole
          rw [count m live, List.length_cons, toNat_add_two_mul_mod, bitsVal_cons] at whole
          exact toNat_add_two_mul_inj.mp whole
        refine (wire_asserts (step₁.lt hout) (.self hsum.below)
          fun h m live => (wanted h m live).1).bind fun _ s₂ step₂ wired => ?_
        have upTo := step₁.trans step₂
        refine (ih (by simpa using lengthX) (by simpa using lengthY) (has.later upTo)
          (hx.later upTo) (hy.later upTo) (hnext.below.mono step₂.next_le)
          fun h m live => (wanted.later step₂ h m live).2).imp
          fun c s₃ step₃ ⟨below, rest⟩ => ⟨below, fun m live => ?_⟩
        -- The carry out of the rest counts twice as much here.
        have before := step₃.narrows m live
        have low : m out = r.1.value m := wired m before
        have high := rest m live
        dsimp only at high ⊢
        rw [count m (step₂.narrows m before), ← high, bitsVal_cons, low, List.length_cons,
          Nat.pow_succ']
        ring

theorem encodeAdderCarry_builds {result a b : List Nat} (hosts : Hosts k s)
    (lengthA : a.length = result.length) (lengthB : b.length = result.length)
    (has : s.Has result) (ha : s.Has a) (hb : s.Has b)
    (aim : s.Aims fun m => bitsVal m result = (bitsVal m a + bitsVal m b) % 2 ^ result.length) :
    Builds s (encodeAdderCarry k result a b) fun c s' =>
      c.Below s'.list.next ∧ s'.Entails fun m =>
        bitsVal m result + 2 ^ result.length * (c.value m).toNat = bitsVal m a + bitsVal m b := by
  refine (ripple_builds (by simpa using lengthA) (by simpa using lengthB) has (carried_sigs ha)
    (carried_sigs hb) (below_false _) fun h m live => ?_).imp fun c s' step ⟨below, counts⟩ =>
      ⟨below, fun m live => ?_⟩
  -- No carry comes in, and variables read as bits keep their values.
  · have pinned := hosts.pinned m live
    simpa [bitsVal_sigs pinned] using aim h m live
  · have pinned := hosts.pinned m (step.narrows m live)
    simpa [bitsVal_sigs pinned] using counts m live

theorem ult_step (a b prev : Bool) (A B : Nat) :
    (decide (A < B) || (decide (A = B) && ((!a && b) || ((a == b) && prev)))) =
      (decide (a.toNat + 2 * A < b.toNat + 2 * B) ||
        (decide (a.toNat + 2 * A = b.toNat + 2 * B) && prev)) := by
  -- The higher bits decide unless they are equal.
  rcases Nat.lt_trichotomy A B with less | same | greater
  · have first : a.toNat + 2 * A < b.toNat + 2 * B := by
      have := Bool.toNat_lt a
      omega
    simp [less, first]
  · subst same
    cases a <;> cases b <;> cases prev <;> simp
  · have first : b.toNat + 2 * B < a.toNat + 2 * A := by
      have := Bool.toNat_lt b
      omega
    simp [Nat.lt_asymm greater, Nat.ne_of_gt greater, Nat.lt_asymm first, Nat.ne_of_gt first]

theorem ultFrom_builds {as bs : List Nat} {prev : Sig} {f : Assignment → Bool}
    (hosts : Hosts k s) (length : as.length = bs.length) (ha : s.Has as) (hb : s.Has bs)
    (hp : Means s prev f) :
    Builds s (ultFrom k as bs prev) fun z s' => Means s' z fun m =>
      decide (bitsVal m as < bitsVal m bs) || (decide (bitsVal m as = bitsVal m bs) && f m) := by
  induction as generalizing s bs prev f with
  | nil =>
    obtain rfl : bs = [] := List.length_eq_zero_iff.mp length.symm
    exact .ret (hp.congr fun m _ => by simp)
  | cons a as ih =>
    cases bs with
    | nil => simp at length
    | cons b bs =>
      obtain ⟨ha₀, ha⟩ := Stage.has_cons.mp ha
      obtain ⟨hb₀, hb⟩ := Stage.has_cons.mp hb
      have hx : Means s (sig k a) fun m => m a := sig_means hosts ha₀
      have hy : Means s (sig k b) fun m => m b := sig_means hosts hb₀
      refine (gateAndNotA_builds hx hy).bind fun ltAt s₁ step₁ hlt => ?_
      refine (gateXnor_builds (hx.later step₁) (hy.later step₁)).bind fun eq s₂ step₂ heq => ?_
      have upTo₂ := step₁.trans step₂
      refine (gateAnd_builds heq (hp.later upTo₂)).bind fun carry s₃ step₃ hcarry => ?_
      refine (gateOr_builds (hlt.later (step₂.trans step₃)) hcarry).bind
        fun next s₄ step₄ hnext => ?_
      have upTo := (upTo₂.trans step₃).trans step₄
      refine (ih (hosts.later upTo) (by simpa using length) (ha.later upTo) (hb.later upTo)
        hnext).imp fun z s₅ step₅ means => means.congr fun m _ => ?_
      rw [ult_step, bitsVal_cons, bitsVal_cons]

theorem encodeUltResult_asserts {as bs : List Nat} {result : Nat} (hosts : Hosts k s)
    (length : as.length = bs.length) (ha : s.Has as) (hb : s.Has bs)
    (hresult : result < s.list.next) :
    Asserts s (encodeUltResult k as bs result) fun m =>
      m result = decide (bitsVal m as < bitsVal m bs) := by
  cases as with
  | nil =>
    obtain rfl : bs = [] := List.length_eq_zero_iff.mp length.symm
    refine (addClause_asserts ?_).congr fun m _ => ?_
    · simpa using hresult
    · simp [Satisfies]
  | cons a as =>
    cases bs with
    | nil => simp at length
    | cons b bs =>
      intro aim
      obtain ⟨ha₀, ha⟩ := Stage.has_cons.mp ha
      obtain ⟨hb₀, hb⟩ := Stage.has_cons.mp hb
      refine (gateAndNotA_builds (sig_means hosts ha₀) (sig_means hosts hb₀)).bind
        fun lt₀ s₁ step₁ hlt₀ => ?_
      -- The lowest bits decide last, and nothing lies below them.
      refine (ultFrom_builds (hosts.later step₁) (by simpa using length) (ha.later step₁)
        (hb.later step₁) hlt₀).bind fun lt s₂ step₂ hlt => ?_
      have upTo := step₁.trans step₂
      refine wire_asserts (upTo.lt hresult) (hlt.congr fun m _ => ?_) (aim.later upTo)
      have step := ult_step (m a) (m b) false (bitsVal m as) (bitsVal m bs)
      simpa using step

theorem signals_none {bits : List Nat} (none : signals k bits = none) {m : Assignment}
    (pinned : k.Pinned m) : bitsVal m bits ≠ 0 := by
  induction bits with
  | nil => cases none
  | cons bit bits ih =>
    have read := sig_value pinned bit
    simp only [signals] at none
    cases same : sig k bit with
    | true =>
      rw [same, Sig.value_true] at read
      simp [← read]
    | false =>
      rw [same] at none
      simp [ih none]
    | var v =>
      rw [same] at none
      simp [ih (Option.map_eq_none_iff.mp none)]

theorem signals_some {bits free : List Nat} (some : signals k bits = some free) :
    (∀ v ∈ free, v ∈ bits) ∧
      ∀ m, k.Pinned m → (bitsVal m bits = 0 ↔ ∀ v ∈ free, m v = false) := by
  induction bits generalizing free with
  | nil =>
    obtain rfl := Option.some.inj some
    simp
  | cons bit bits ih =>
    simp only [signals] at some
    cases same : sig k bit with
    | true =>
      rw [same] at some
      cases some
    | false =>
      -- A false constant counts nothing.
      rw [same] at some
      obtain ⟨lies, zero⟩ := ih some
      refine ⟨fun v mem => List.mem_cons_of_mem _ (lies v mem), fun m pinned => ?_⟩
      have off := sig_value pinned bit
      rw [same, Sig.value_false] at off
      simpa [← off] using zero m pinned
    | var v =>
      rw [same] at some
      obtain ⟨rest, found, rfl⟩ := Option.map_eq_some_iff.mp some
      obtain ⟨lies, zero⟩ := ih found
      have itself := sig_var same
      subst itself
      refine ⟨?_, fun m pinned => ?_⟩
      · intro w mem
        rcases List.mem_cons.mp mem with rfl | mem
        · exact List.mem_cons_self
        · exact List.mem_cons_of_mem _ (lies w mem)
      · simp [zero m pinned]

theorem allZero_clauses {m : Assignment} {bits free : List Nat} {out : Nat}
    (zero : bitsVal m bits = 0 ↔ ∀ v ∈ free, m v = false) :
    ((∀ w ∈ free, Satisfies m [.neg out, .neg w]) ∧
      Satisfies m (.pos out :: free.map .pos)) ↔ m out = decide (bitsVal m bits = 0) := by
  have none : (∀ w ∈ free, Satisfies m [.neg out, .neg w]) ↔
      (m out = true → ∀ w ∈ free, m w = false) := by
    simp only [Satisfies, List.mem_cons, List.not_mem_nil, or_false, exists_eq_or_imp,
      exists_eq_left, Lit.holds_neg]
    constructor
    · intro each on w mem
      rcases each w mem with off | off
      · rw [on] at off
        cases off
      · exact off
    · intro all w mem
      cases on : m out with
      | false => exact .inl rfl
      | true => exact .inr (all on w mem)
  have some : Satisfies m (.pos out :: free.map .pos) ↔
      m out = true ∨ ∃ w ∈ free, m w = true := by
    simp [Satisfies]
  rw [none, some]
  by_cases off : ∀ w ∈ free, m w = false
  · -- All signals are off, so only the output can satisfy the long clause.
    have isZero := zero.mpr off
    simp only [isZero, decide_true]
    constructor
    · rintro ⟨-, on | ⟨w, mem, on⟩⟩
      · exact on
      · rw [off w mem] at on
        cases on
    · exact fun on => ⟨fun _ => off, .inl on⟩
  · have notZero : bitsVal m bits ≠ 0 := fun isZero => off (zero.mp isZero)
    simp only [notZero, decide_false]
    constructor
    · rintro ⟨only, -⟩
      exact Bool.eq_false_iff.mpr fun on => off (only on)
    · intro out_off
      refine ⟨fun on => absurd on (by simp [out_off]), .inr ?_⟩
      by_contra noneOn
      exact off fun w mem => Bool.eq_false_iff.mpr fun on => noneOn ⟨w, mem, on⟩

theorem encodeAllZero_asserts {bits : List Nat} {out : Nat} (hosts : Hosts k s)
    (has : s.Has bits) (hout : out < s.list.next) :
    Asserts s (encodeAllZero k out bits) fun m => m out = decide (bitsVal m bits = 0) := by
  unfold encodeAllZero
  cases found : signals k bits with
  | none =>
    refine (addClause_asserts ?_).congr fun m live => ?_
    · simpa using hout
    · simp [Satisfies, signals_none found (hosts.pinned m live)]
  | some free =>
    obtain ⟨lies, zero⟩ := signals_some found
    cases free with
    | nil =>
      refine (addClause_asserts ?_).congr fun m live => ?_
      · simpa using hout
      · simp [Satisfies, zero m (hosts.pinned m live)]
    | cons v free =>
      have below : ∀ w ∈ v :: free, w < s.list.next := fun w mem => has w (lies w mem)
      -- The output excludes every signal, and it holds where all of them are off.
      have exclude : Asserts s ((v :: free).forM fun w => addClause [.neg out, .neg w])
          fun m => ∀ w ∈ v :: free, Satisfies m [.neg out, .neg w] := by
        refine Asserts.forM fun w mem s' step => addClause_asserts ?_
        simp [step.lt hout, step.lt (below w mem)]
      refine (exclude.seq fun s' step => addClause_asserts ?_).congr fun m live => ?_
      · intro lit mem
        rcases List.mem_cons.mp mem with rfl | mem
        · exact step.lt hout
        · obtain ⟨w, free, rfl⟩ := List.mem_map.mp mem
          exact step.lt (below w free)
      · exact allZero_clauses (zero m (hosts.pinned m live))

theorem gateNots_builds {bits : List Nat} (hosts : Hosts k s) (has : s.Has bits) :
    Builds s (gateNots k bits) fun nots s' => nots.length = bits.length ∧ Carried s' nots ∧
      s'.Entails fun m =>
        bitsVal (Sig.value m) nots + bitsVal m bits + 1 = 2 ^ bits.length := by
  induction bits generalizing s with
  | nil => exact .ret ⟨rfl, fun _ mem => (nomatch mem), fun m _ => by simp⟩
  | cons bit bits ih =>
    obtain ⟨hbit, has⟩ := Stage.has_cons.mp has
    refine (gateNot_builds (sig_means hosts hbit)).bind fun nb s₁ step₁ hnb => ?_
    refine (ih (hosts.later step₁) (has.later step₁)).bind
      fun rest s₂ step₂ ⟨length, carried, sum⟩ => ?_
    refine .ret ⟨by simp [length], carried_cons.mpr ⟨hnb.below.mono step₂.next_le, carried⟩,
      fun m live => ?_⟩
    -- A bit and its negation count one.
    have low : nb.value m = !m bit := hnb.value m (step₂.narrows m live)
    have high := sum m live
    dsimp only at high ⊢
    rw [bitsVal_cons, bitsVal_cons, low, List.length_cons, Nat.pow_succ']
    cases m bit <;> simp <;> omega

theorem encodeTwoComplement_asserts {result a : List Nat} (hosts : Hosts k s)
    (length : a.length = result.length) (has : s.Has result) (ha : s.Has a) :
    Asserts s (encodeTwoComplement k result a) fun m =>
      bitsVal m result = (2 ^ result.length - bitsVal m a) % 2 ^ result.length := by
  intro aim
  refine (gateNots_builds hosts ha).bind fun nots s₁ step₁ ⟨count, carried, sum⟩ => ?_
  have zeros : ∀ m, bitsVal (Sig.value m) (nots.map fun _ => Sig.false) = 0 := by
    intro m
    rw [List.map_const', bitsVal_replicate rfl]
  -- The negated bits and one make up the complement.
  have complement : ∀ m, s₁.Live m →
      bitsVal (Sig.value m) nots + 1 = 2 ^ result.length - bitsVal m a := by
    intro m live
    have whole := sum m live
    dsimp only at whole
    rw [length] at whole
    omega
  have carriedZeros : Carried s₁ (nots.map fun _ => Sig.false) := by
    intro z mem
    obtain ⟨_, _, rfl⟩ := List.mem_map.mp mem
    trivial
  refine (ripple_builds (by rw [count, length]) (by rw [List.length_map, count, length])
    (has.later step₁) carried carriedZeros (below_true _) fun h m live => ?_).bind
      fun c s₂ step₂ ⟨_, counts⟩ => .ret fun m live => ?_
  · have whole := aim.later step₁ h m live
    dsimp only at whole ⊢
    rw [zeros, Sig.value_true, Bool.toNat_true, Nat.add_zero, complement m live, whole]
  · have whole := counts m live
    dsimp only at whole ⊢
    rw [zeros, Sig.value_true, Bool.toNat_true, Nat.add_zero,
      complement m (step₂.narrows m live)] at whole
    rw [← whole, Nat.add_mul_mod_self_left, Nat.mod_eq_of_lt (bitsVal_lt result)]

theorem encodeMuxes_asserts {outs ts es : List Nat} {sel : Nat} (hosts : Hosts k s)
    (lengthT : ts.length = outs.length) (lengthE : es.length = outs.length)
    (has : s.Has outs) (ht : s.Has ts) (he : s.Has es) (hsel : sel < s.list.next) :
    Asserts s (encodeMuxes k sel outs ts es) fun m =>
      bitsVal m outs = bif m sel then bitsVal m ts else bitsVal m es := by
  induction outs generalizing s ts es with
  | nil =>
    obtain rfl : ts = [] := List.length_eq_zero_iff.mp lengthT
    obtain rfl : es = [] := List.length_eq_zero_iff.mp lengthE
    exact Asserts.skip fun m _ => by simp
  | cons out outs ih =>
    cases ts with
    | nil => simp at lengthT
    | cons t ts =>
      cases es with
      | nil => simp at lengthE
      | cons e es =>
        obtain ⟨hout, has⟩ := Stage.has_cons.mp has
        obtain ⟨ht₀, ht⟩ := Stage.has_cons.mp ht
        obtain ⟨he₀, he⟩ := Stage.has_cons.mp he
        refine (Asserts.seq (encodeMux_asserts hosts hout hsel ht₀ he₀) fun s' step =>
          ih (hosts.later step) (by simpa using lengthT) (by simpa using lengthE)
            (has.later step) (ht.later step) (he.later step) (step.lt hsel)).congr fun m _ => ?_
        cases m sel <;> simp only [cond_true, cond_false, bitsVal_cons_inj]

theorem encodeWordEq_asserts {as bs : List Nat} (hosts : Hosts k s)
    (length : as.length = bs.length) (ha : s.Has as) (hb : s.Has bs) :
    Asserts s (encodeWordEq k as bs) fun m => bitsVal m as = bitsVal m bs := by
  induction as generalizing s bs with
  | nil =>
    obtain rfl : bs = [] := List.length_eq_zero_iff.mp length.symm
    exact Asserts.skip fun m _ => rfl
  | cons a as ih =>
    cases bs with
    | nil => simp at length
    | cons b bs =>
      obtain ⟨ha₀, ha⟩ := Stage.has_cons.mp ha
      obtain ⟨hb₀, hb⟩ := Stage.has_cons.mp hb
      refine (Asserts.seq (encodeBitEq_asserts hosts ha₀ hb₀) fun s' step =>
        ih (hosts.later step) (by simpa using length) (ha.later step)
          (hb.later step)).congr fun m _ => ?_
      rw [bitsVal_cons_inj]

end Nixie.Bv.Circuit
