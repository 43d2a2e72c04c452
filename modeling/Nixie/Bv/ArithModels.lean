import Nixie.Bv.Solver

/-! The models of the clauses that an arithmetic operation adds. -/

namespace Nixie.Bv

open Netlist Function

/-- Reserved bits and bits of terms were handed out. -/
structure BvSolver.WellFormed (s : BvSolver) : Prop where
  true_lt : s.consts.constTrue < s.sat.next
  false_lt : s.consts.constFalse < s.sat.next
  bits_lt : ∀ {term v}, s.termToBv term = some v → ∀ bit ∈ v.bits, bit < s.sat.next
  pinned : ∀ m, Models m s.sat.clauses → s.consts.Pinned m

namespace BvSolver

variable {s : BvSolver} {term result a b : TermId} {v va vb : BvVar} {width : Nat}
  {m m' : Assignment}

theorem wellFormed_new : new.WellFormed where
  true_lt := by decide
  false_lt := by decide
  bits_lt := fun found => (nomatch found)
  pinned := by
    intro m models
    have units : Models m [[.pos 0], [.neg 1]] := models
    show m 0 = true ∧ m 1 = false
    simpa [Models, Satisfies] using units

theorem WellFormed.local_pinned (wf : s.WellFormed) : Local s.sat.next s.consts.Pinned := by
  intro m m' agree
  unfold ConstBits.Pinned
  rw [agree _ wf.true_lt, agree _ wf.false_lt]

def start (s : BvSolver) (wf : s.WellFormed) (aimed : Prop) (aim : Assignment → Prop)
    (isLocal : Local s.sat.next aim) : Stage aimed s.consts.Pinned where
  list := s.sat
  before := s.sat.clauses
  added := []
  split := (List.append_nil _).symm
  aim := aim
  below := fun _ member => (nomatch member)
  aimLocal := isLocal
  knownLocal := wf.local_pinned

variable {aimed : Prop} {aim : Assignment → Prop}

theorem start_hosts (wf : s.WellFormed) (isLocal : Local s.sat.next aim) :
    Hosts s.consts (s.start wf aimed aim isLocal) where
  true_lt := wf.true_lt
  false_lt := wf.false_lt
  pinned := fun _ live => live.1

theorem start_has (wf : s.WellFormed) (isLocal : Local s.sat.next aim)
    (found : s.termToBv term = some v) : (s.start wf aimed aim isLocal).Has v.bits :=
  wf.bits_lt found

theorem word_agree (wf : s.WellFormed) (found : s.termToBv term = some v)
    (agree : AgreeBelow s.sat.next m m') : word width m' v.bits = word width m v.bits := by
  rw [word, bitsVal_congr fun bit mem => agree bit (wf.bits_lt found bit mem)]
  rfl

theorem local_equation {denote : BitVec width → BitVec width → BitVec width} (wf : s.WellFormed)
    (hr : s.termToBv result = some v) (ha : s.termToBv a = some va) (hb : s.termToBv b = some vb) :
    Local s.sat.next fun m =>
      word width m v.bits = denote (word width m va.bits) (word width m vb.bits) := by
  intro m m' agree
  simp only [word_agree wf hr agree, word_agree wf ha agree, word_agree wf hb agree]

/--
Clauses that a circuit adds, from what it builds with and without wanted values.

The clauses force what the circuit entails, and no more of what is wanted.
-/
theorem models_of_builds {α : Type} {circuit : Build α} {wanted forced : Assignment → Prop}
    (wf : s.WellFormed) (isLocal : Local s.sat.next fun m => wanted m ∧ forced m)
    (built : ∀ aimed : Prop, Builds (s.start wf aimed _ isLocal) circuit fun _ s' =>
      s'.Entails forced) :
    ∃ emitted, (circuit.run s.sat).2.clauses = s.sat.clauses ++ emitted ∧
      (∀ m, s.consts.Pinned m → Models m emitted → forced m) ∧
      ∀ m, s.consts.Pinned m → wanted m → forced m →
        ∃ m', AgreeBelow s.sat.next m m' ∧ s.consts.Pinned m' ∧ Models m' emitted := by
  obtain ⟨s', same, emits, -⟩ := (built True).emits
  refine ⟨s'.added, emits, fun m pinned models => ?_, fun m pinned want force => ?_⟩
  · -- Without wanted values every model of the clauses is counted.
    obtain ⟨_, _, holds, live⟩ := (built False).sound emits
    exact holds m (live m pinned models)
  · exact (built True).complete emits
      ⟨pinned, fun _ mem => (nomatch mem), fun _ => ⟨want, force⟩⟩

/-- A circuit gives its result the value of an operation on two words of a width. -/
def Encodes (encode : ConstBits → List Nat → List Nat → List Nat → Build Unit) (width : Nat)
    (denote : BitVec width → BitVec width → BitVec width) : Prop :=
  ∀ {aimed : Prop} {known : Assignment → Prop} {s : Stage aimed known} {k : ConstBits}
    {result a b : List Nat}, Hosts k s → result.length = width → a.length = width →
    b.length = width → s.Has result → s.Has a → s.Has b →
    Asserts s (encode k result a b) fun m =>
      word width m result = denote (word width m a) (word width m b)

variable {encode : ConstBits → List Nat → List Nat → List Nat → Build Unit}

/--
A solver in which both operands and the result have bits of one width.

The circuit of the operation adds clauses, and these say what the result is.
-/
theorem encode_models {denote : BitVec width → BitVec width → BitVec width}
    (encodes : Encodes encode width denote) (wf : s.WellFormed) (hr : s.termToBv result = some v)
    (ha : s.termToBv a = some va) (hb : s.termToBv b = some vb) (widthR : v.width = width)
    (widthA : va.width = width) (widthB : vb.width = width) :
    ∃ emitted, (s.build (encode s.consts v.bits va.bits vb.bits)).sat.clauses =
        s.sat.clauses ++ emitted ∧
      (∀ m, s.consts.Pinned m → Models m emitted →
        word width m v.bits = denote (word width m va.bits) (word width m vb.bits)) ∧
      ∀ m, s.consts.Pinned m →
        word width m v.bits = denote (word width m va.bits) (word width m vb.bits) →
        ∃ m', AgreeBelow s.sat.next m m' ∧ s.consts.Pinned m' ∧ Models m' emitted := by
  have both : Local s.sat.next fun m => True ∧
      word width m v.bits = denote (word width m va.bits) (word width m vb.bits) := by
    intro m m' agree
    simp only [local_equation wf hr ha hb agree]
  -- The equation is all that is wanted, and the circuit forces it.
  obtain ⟨emitted, clauses, sound, complete⟩ := models_of_builds wf both fun aimed =>
    encodes (start_hosts wf both) (v.width_eq.trans widthR) (va.width_eq.trans widthA)
      (vb.width_eq.trans widthB) (start_has wf both hr) (start_has wf both ha)
      (start_has wf both hb) fun h m live => (live.2.2 h).2
  exact ⟨emitted, clauses, sound, fun m pinned equation => complete m pinned trivial equation⟩

theorem newVars_run (count : Nat) (list : Netlist) : (newVars count).run list =
      (List.range' list.next count, { list with next := list.next + count }) := by
  induction count generalizing list with
  | zero => rfl
  | succ count ih =>
    show (list.next :: ((newVars count).run { list with next := list.next + 1 }).1,
      ((newVars count).run { list with next := list.next + 1 }).2) = _
    simp only [ih, List.range'_succ, Nat.add_assoc, Nat.add_comm 1 count]

theorem newBv_of_none (none : s.termToBv term = none) (width : Nat) :
    (s.newBv term width).1.bits = ((newVars width).run s.sat).1 ∧
      (s.newBv term width).1.width = width ∧
      (s.newBv term width).2 = { s with
        sat := ((newVars width).run s.sat).2
        termToBv := update s.termToBv term (some (s.newBv term width).1) } := by
  unfold newBv
  rw [none]
  exact ⟨rfl, rfl, rfl⟩

theorem newBv_of_some (found : s.termToBv term = some v) (width : Nat) :
    s.newBv term width = (v, s) := by
  unfold newBv
  rw [found]

/-- What asking for the bits of a term leaves. -/
structure Allocated (s mid : BvSolver) (term : TermId) (v : BvVar) : Prop where
  wf : mid.WellFormed
  found : mid.termToBv term = some v
  kept : ∀ {other w}, s.termToBv other = some w → mid.termToBv other = some w
  consts : mid.consts = s.consts
  clauses : mid.sat.clauses = s.sat.clauses
  next_le : s.sat.next ≤ mid.sat.next

theorem newBv_allocated (wf : s.WellFormed) (term : TermId) (width : Nat) :
    Allocated s (s.newBv term width).2 term (s.newBv term width).1 := by
  cases found : s.termToBv term with
  | some v =>
    rw [newBv_of_some found]
    exact ⟨wf, found, id, rfl, rfl, Nat.le_refl _⟩
  | none =>
    obtain ⟨bits, _, same⟩ := newBv_of_none found width
    rw [newVars_run] at bits
    rw [same]
    simp only [newVars_run]
    have le : s.sat.next ≤ s.sat.next + width := Nat.le_add_right _ _
    refine ⟨⟨Nat.lt_of_lt_of_le wf.true_lt le, Nat.lt_of_lt_of_le wf.false_lt le, ?_, wf.pinned⟩,
      update_self .., ?_, rfl, rfl, le⟩
    · intro other w there bit mem
      by_cases new : other = term
      · -- The new bits lie between the old and the new bound.
        subst new
        dsimp only at there
        rw [update_self] at there
        obtain rfl := Option.some.inj there
        rw [bits] at mem
        exact (List.mem_range'_1.mp mem).2
      · dsimp only at there
        rw [update_of_ne new] at there
        exact Nat.lt_of_lt_of_le (wf.bits_lt there bit mem) le
    · intro other w there
      have ne : other ≠ term := fun same => by rw [same, found] at there; cases there
      dsimp only
      rw [update_of_ne ne]
      exact there

theorem newBv_free (wf : s.WellFormed) (none : s.termToBv term = none) (pinned : s.consts.Pinned m)
    (value : BitVec width) : ∃ m', AgreeBelow s.sat.next m m' ∧ s.consts.Pinned m' ∧
      word width m' (s.newBv term width).1.bits = value := by
  have nothing : Local s.sat.next fun _ => True := fun _ _ _ => rfl
  have constant : Local s.sat.next fun _ => value.toNat := fun _ _ _ => rfl
  obtain ⟨s', _, step, -, -, aims⟩ :=
    @newVars_builds True _ (s.start wf True _ nothing) width (fun _ => value.toNat) constant
  obtain ⟨m', agree, live⟩ := step.widens trivial m
    ⟨pinned, fun _ mem => (nomatch mem), fun _ => trivial⟩
  refine ⟨m', agree, live.1, ?_⟩
  have chosen : bitsVal m' ((newVars width).run s.sat).1 = value.toNat % 2 ^ width :=
    aims trivial m' live
  rw [word, (newBv_of_none none width).1, chosen, Nat.mod_eq_of_lt value.isLt, BitVec.ofNat_toNat,
    BitVec.setWidth_eq]

theorem Allocated.bit_lt {mid : BvSolver} (alloc : Allocated s mid term v) {bit : Nat}
    (known : bit < s.sat.next ∨ bit ∈ v.bits) : bit < mid.sat.next := by
  rcases known with old | mem
  · exact Nat.lt_of_lt_of_le old alloc.next_le
  · exact alloc.wf.bits_lt alloc.found bit mem

theorem binopBits_eq (ha : s.termToBv a = some va) (hb : s.termToBv b = some vb)
    (same : va.width = vb.width) : s.binopBits a b = some (va, vb) := by
  simp [binopBits, ha, hb, same]

theorem resultBits_eq (fits : (s.newBv result width).1.width = width) :
    s.resultBits result width = (some (s.newBv result width).1, (s.newBv result width).2) := by
  simp [resultBits, fits]

/-- The solver in which the circuit of an operation was run on the bits of the result. -/
def encoded (encode : ConstBits → List Nat → List Nat → List Nat → Build Unit) (s : BvSolver)
    (result : TermId) (va vb : BvVar) : BvSolver :=
  let (r, mid) := s.newBv result va.width
  mid.build (encode mid.consts r.bits va.bits vb.bits)

/--
The clauses that were added give the result the value of an operation.

Every assignment of the older variables in which the result has that value extends to a model of
them, and so does every assignment where the result had no bits.
-/
def Computes (s s' : BvSolver) (result : TermId) (va vb : BvVar)
    (denote : BitVec va.width → BitVec va.width → BitVec va.width) : Prop :=
  ∃ r emitted, s'.termToBv result = some r ∧ r.width = va.width ∧
    s'.sat.clauses = s.sat.clauses ++ emitted ∧
    (∀ m, s.consts.Pinned m → Models m emitted →
      word va.width m r.bits = denote (word va.width m va.bits) (word va.width m vb.bits)) ∧
    (∀ m, s.consts.Pinned m →
      word va.width m r.bits = denote (word va.width m va.bits) (word va.width m vb.bits) →
      ∃ m', (∀ bit, bit < s.sat.next ∨ bit ∈ r.bits → m' bit = m bit) ∧
        s.consts.Pinned m' ∧ Models m' emitted) ∧
    (s.termToBv result = none → ∀ m, s.consts.Pinned m →
      ∃ m', AgreeBelow s.sat.next m m' ∧ s.consts.Pinned m' ∧ Models m' emitted)

theorem newBv_width (fits : ∀ r, s.termToBv result = some r → r.width = width) :
    (s.newBv result width).1.width = width := by
  cases found : s.termToBv result with
  | some r => rw [newBv_of_some found]; exact fits r found
  | none => exact (newBv_of_none found width).2.1

theorem encoded_computes {denote : BitVec va.width → BitVec va.width → BitVec va.width}
    (encodes : Encodes encode va.width denote) (wf : s.WellFormed) (ha : s.termToBv a = some va)
    (hb : s.termToBv b = some vb) (same : va.width = vb.width)
    (fits : ∀ r, s.termToBv result = some r → r.width = va.width) :
    Computes s (encoded encode s result va vb) result va vb denote := by
  have width_eq := newBv_width fits
  have alloc := newBv_allocated wf result va.width
  have free := fun none m => @newBv_free s result va.width m wf none
  unfold encoded
  generalize s.newBv result va.width = pair at alloc width_eq free
  obtain ⟨r, mid⟩ := pair
  dsimp only at alloc width_eq free ⊢
  -- The circuit runs on the solver in which the result has its bits.
  obtain ⟨emitted, clauses, sound, complete⟩ := encode_models encodes alloc.wf alloc.found
    (alloc.kept ha) (alloc.kept hb) width_eq rfl same.symm
  rw [alloc.consts] at sound complete
  rw [alloc.clauses] at clauses
  refine ⟨r, emitted, alloc.found, width_eq, clauses, sound, ?_, ?_⟩
  · intro m pinned equation
    obtain ⟨m', agree, pinned', models⟩ := complete m pinned equation
    exact ⟨m', fun bit known => agree bit (alloc.bit_lt known), pinned', models⟩
  · intro none m pinned
    -- The fresh bits take the value of the operation.
    obtain ⟨m₁, agree₁, pinned₁, chosen⟩ := free none m pinned
      (denote (word va.width m va.bits) (word va.width m vb.bits))
    obtain ⟨m', agree, pinned', models⟩ := complete m₁ pinned₁
      (by rw [chosen, word_agree wf ha agree₁, word_agree wf hb agree₁])
    exact ⟨m', agree₁.trans (agree.mono alloc.next_le), pinned', models⟩

theorem binop_eq (ha : s.termToBv a = some va) (hb : s.termToBv b = some vb)
    (same : va.width = vb.width) (fits : (s.newBv result va.width).1.width = va.width) :
    binop encode s result a b = (true, s.encoded encode result va vb) := by
  simp only [binop, binopBits_eq ha hb same, resultBits_eq fits, encoded]

theorem divop_eq
    (ha : s.termToBv a = some va) (hb : s.termToBv b = some vb) (same : va.width = vb.width)
    (pos : 0 < va.width) : divop encode s result a b = binop encode s result a b := by
  have nonempty : va.width ≠ 0 := Nat.pos_iff_ne_zero.mp pos
  simp only [divop, binopBits_eq ha hb same, if_neg nonempty]

/-- A solver with two operands of one width and nothing else. -/
def withOperands (width : Nat) : BvSolver := ((new.newBv 0 width).2.newBv 1 width).2

theorem withOperands_spec (width : Nat) : (withOperands width).WellFormed ∧
    (∃ va, (withOperands width).termToBv 0 = some va ∧ va.width = width) ∧
    (∃ vb, (withOperands width).termToBv 1 = some vb ∧ vb.width = width) ∧
    (withOperands width).termToBv 2 = none := by
  have first := newBv_allocated wellFormed_new 0 width
  have second := newBv_allocated first.wf 1 width
  exact ⟨second.wf, ⟨_, second.kept first.found, rfl⟩, ⟨_, second.found, rfl⟩, rfl⟩

end BvSolver

theorem ArithOp.run_eq (op : ArithOp) {s : BvSolver} {result a b : TermId} {va vb : BvVar}
    (ha : s.termToBv a = some va) (hb : s.termToBv b = some vb) (same : va.width = vb.width)
    (pos : 0 < va.width) (fits : (s.newBv result va.width).1.width = va.width) :
    op.run s result a b = (true, s.encoded op.encode result va vb) := by
  cases op with
  | mul => exact BvSolver.binop_eq ha hb same fits
  | udiv | urem | sdiv | srem =>
    exact (BvSolver.divop_eq ha hb same pos).trans (BvSolver.binop_eq ha hb same fits)

/--
Models of the clauses that an arithmetic operation adds.

They give the result the value of the operation, and every assignment of the older variables in
which the result has that value extends to one of them.
A result without bits gets fresh ones, so then every assignment of the older variables does.
-/
theorem ArithOp.models_exact (op : ArithOp) {s : BvSolver} (wf : s.WellFormed) {result a b : TermId}
    {va vb : BvVar} (ha : s.termToBv a = some va) (hb : s.termToBv b = some vb)
    (same : va.width = vb.width) (positive : 0 < va.width)
    (fits : ∀ r, s.termToBv result = some r → r.width = va.width) :
    (op.run s result a b).1 = true ∧ ∃ r emitted,
      (op.run s result a b).2.termToBv result = some r ∧ r.width = va.width ∧
      (op.run s result a b).2.sat.clauses = s.sat.clauses ++ emitted ∧
      (∀ m, s.consts.Pinned m → Models m emitted → word va.width m r.bits =
          op.denote (word va.width m va.bits) (word va.width m vb.bits)) ∧
      (∀ m, s.consts.Pinned m → word va.width m r.bits =
          op.denote (word va.width m va.bits) (word va.width m vb.bits) →
        ∃ m', (∀ bit, bit < s.sat.next ∨ bit ∈ r.bits → m' bit = m bit) ∧
          s.consts.Pinned m' ∧ Models m' emitted) ∧
      (s.termToBv result = none → ∀ m, s.consts.Pinned m →
        ∃ m', AgreeBelow s.sat.next m m' ∧ s.consts.Pinned m' ∧ Models m' emitted) := by
  rw [op.run_eq ha hb same positive (BvSolver.newBv_width fits)]
  exact ⟨rfl, BvSolver.encoded_computes (fun hosts => op.encode_asserts hosts positive) wf ha hb
    same fits⟩

/-- Signed division of two fresh operands, the least dividend and a divisor of zero included. -/
theorem ArithOp.sdiv_models : ∃ va vb r emitted,
    (BvSolver.bvSdiv (BvSolver.withOperands 4) 2 0 1).2.termToBv 2 = some r ∧
      (BvSolver.withOperands 4).termToBv 0 = some va ∧
      (BvSolver.withOperands 4).termToBv 1 = some vb ∧
      (BvSolver.bvSdiv (BvSolver.withOperands 4) 2 0 1).2.sat.clauses =
        (BvSolver.withOperands 4).sat.clauses ++ emitted ∧
      ∀ m, (BvSolver.withOperands 4).consts.Pinned m → Models m emitted →
        word 4 m r.bits = BitVec.smtSDiv (word 4 m va.bits) (word 4 m vb.bits) := by
  obtain ⟨wf, ⟨va, ha, widthA⟩, ⟨vb, hb, widthB⟩, none⟩ := BvSolver.withOperands_spec 4
  obtain ⟨-, r, emitted, found, -, clauses, sound, -⟩ := ArithOp.models_exact .sdiv wf ha hb
    (widthA.trans widthB.symm) (by omega) (fun r found => by rw [none] at found; cases found)
  rw [widthA] at sound
  exact ⟨va, vb, r, emitted, found, ha, hb, clauses, sound⟩

end Nixie.Bv
