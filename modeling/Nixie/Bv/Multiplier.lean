import Mathlib.Data.Nat.ModEq
import Nixie.Bv.Adders

/-! Multiplication through columns of partial products, compressed until two rows are left to add. -/

namespace Nixie.Bv.Circuit

open Netlist List Nat

abbrev Columns := List (List Sig)

section

variable (k : ConstBits)

/-- Add the products of a bit with the bits of a word to the columns from a position on. -/
def addRow (x : Sig) : List Nat → Nat → Columns → Build Columns
  | [], _, columns => return columns
  | b :: bs, pos, columns =>
    -- Products past the last column are not formed.
    if columns.length ≤ pos then return columns
    else do
      let pp ← gateAnd x (sig k b)
      addRow x bs (pos + 1) (if pp = .false then columns else columns.modify pos (· ++ [pp]))

/-- Add the products of two words, except for those with a constant zero. -/
def addRows (b : List Nat) : List Nat → Nat → Columns → Build Columns
  | [], _, columns => return columns
  | a :: as, i, columns =>
    if sig k a = .false then addRows b as (i + 1) columns
    else do
      let columns ← addRow k (sig k a) b i columns
      addRows b as (i + 1) columns

def pushSig (z : Sig) (column : List Sig) : List Sig := if z = .false then column else z :: column

/-- Replace three bits of a column by their sum, and collect the carries for the next column. -/
def compressColumn : List Sig → Build (List Sig × List Sig)
  | x :: y :: z :: rest => do
    let (sum, carry) ← gateFullAdder x y z
    let (sums, carries) ← compressColumn rest
    return (pushSig sum sums, pushSig carry carries)
  | rest => return (rest.filter (· ≠ .false), [])

/-- One round of compression: the carries of a column head the next one. -/
def compressColumns : Columns → List Sig → Build Columns
  | [], _ => return []
  | column :: columns, carriesIn => do
    let (sums, carries) ← compressColumn column
    let rest ← compressColumns columns carries
    return (carriesIn ++ sums) :: rest

def size (columns : Columns) : Nat := (columns.map List.length).sum

def reduceColumns : Nat → Columns → Build Columns
  | 0, columns => return columns
  | fuel + 1, columns =>
    if columns.all (·.length ≤ 2) then return columns
    else do
      let columns ← compressColumns columns []
      reduceColumns fuel columns

def firstBit : List Sig → Sig
  | [] => .false
  | x :: _ => x

def secondBit : List Sig → Sig
  | _ :: y :: _ => y
  | _ => .false

/-- Compress the columns and add the two rows that are left. -/
def reduceColumnsAndAdd (result : List Nat) (columns : Columns) : Build Unit := do
  -- Every round removes a bit, so there are at most as many rounds as bits.
  let columns ← reduceColumns (size columns) columns
  let _ ← ripple result (columns.map firstBit) (columns.map secondBit) .false

def encodeMul (result a b : List Nat) : Build Unit := do
  let columns ← addRows k b a 0 (List.replicate result.length [])
  reduceColumnsAndAdd result columns

def encodeMulFull (result a b : List Nat) : Build Unit := do
  let columns ← addRows k b a 0 (List.replicate (2 * a.length) [])
  reduceColumnsAndAdd result columns

end

variable {aimed : Prop} {known : Assignment → Prop} {s s' : Stage aimed known} {k : ConstBits}
  {m : Assignment} {columns : Columns}

def columnVal (m : Assignment) (column : List Sig) : Nat :=
  (column.map fun z => (z.value m).toNat).sum

def columnsVal (m : Assignment) (columns : Columns) : Nat :=
  Nat.ofDigits 2 (columns.map (columnVal m))

@[simp] theorem columnVal_nil : columnVal m [] = 0 := rfl

@[simp] theorem columnVal_cons (z : Sig) (column : List Sig) :
    columnVal m (z :: column) = (z.value m).toNat + columnVal m column := by
  simp [columnVal]

theorem columnVal_append (front back : List Sig) :
    columnVal m (front ++ back) = columnVal m front + columnVal m back := by
  simp [columnVal]

theorem columnVal_filter (column : List Sig) :
    columnVal m (column.filter (· ≠ .false)) = columnVal m column := by
  induction column with
  | nil => rfl
  | cons z column ih =>
    -- Only constant zeros are dropped.
    rw [filter_cons, columnVal_cons, ← ih]
    cases z <;> simp

@[simp] theorem columnVal_pushSig (z : Sig) (column : List Sig) :
    columnVal m (pushSig z column) = (z.value m).toNat + columnVal m column := by
  unfold pushSig
  split
  · next same => simp [same]
  · exact columnVal_cons z column

@[simp] theorem columnsVal_nil : columnsVal m [] = 0 := rfl

@[simp] theorem columnsVal_cons (column : List Sig) (columns : Columns) :
    columnsVal m (column :: columns) = columnVal m column + 2 * columnsVal m columns := by
  simp [columnsVal, Nat.ofDigits_cons]

theorem columnsVal_replicate (width : Nat) : columnsVal m (List.replicate width []) = 0 := by
  induction width with
  | zero => rfl
  | succ width ih => simp [replicate_succ, ih]

theorem columnsVal_modify (z : Sig) (pos : Nat) (within : pos < columns.length) :
    columnsVal m (columns.modify pos (· ++ [z])) =
      columnsVal m columns + 2 ^ pos * (z.value m).toNat := by
  induction columns generalizing pos with
  | nil => simp at within
  | cons column columns ih =>
    cases pos with
    | zero =>
      simp [columnVal_append]
      omega
    | succ pos =>
      rw [modify_succ_cons, columnsVal_cons, ih pos (by simpa using within),
        columnsVal_cons, pow_succ']
      ring

/-- All bits of the columns were handed out. -/
def CarriedColumns (s : Stage aimed known) (columns : Columns) : Prop :=
  ∀ column ∈ columns, Carried s column

theorem CarriedColumns.later (carried : CarriedColumns s columns) (step : Extends s s') :
    CarriedColumns s' columns :=
  fun column mem => (carried column mem).later step

theorem carriedColumns_cons {column : List Sig} :
    CarriedColumns s (column :: columns) ↔ Carried s column ∧ CarriedColumns s columns :=
  forall_mem_cons

theorem CarriedColumns.modify {z : Sig} (carried : CarriedColumns s columns) (pos : Nat)
    (hz : z.Below s.list.next) : CarriedColumns s (columns.modify pos (· ++ [z])) := by
  induction columns generalizing pos with
  | nil => simp [CarriedColumns]
  | cons column columns ih =>
    obtain ⟨first, rest⟩ := forall_mem_cons.mp carried
    cases pos with
    | zero =>
      refine forall_mem_cons.mpr ⟨?_, rest⟩
      exact forall_mem_append.mpr ⟨first, by simpa using hz⟩
    | succ pos =>
      rw [modify_succ_cons]
      exact forall_mem_cons.mpr ⟨first, ih rest pos⟩

theorem weight_modEq_zero {width pos : Nat} (le : width ≤ pos) (n : Nat) :
    2 ^ pos * n ≡ 0 [MOD 2 ^ width] :=
  (modEq_zero_iff_dvd).mpr (Dvd.dvd.mul_right (pow_dvd_pow 2 le) n)

theorem addRow_builds {x : Sig} {bs : List Nat} {pos : Nat} (hosts : Hosts k s)
    (hx : x.Below s.list.next) (hb : s.Has bs) (carried : CarriedColumns s columns) :
    Builds s (addRow k x bs pos columns) fun columns' s' =>
      columns'.length = columns.length ∧ CarriedColumns s' columns' ∧ s'.Entails fun m =>
        columnsVal m columns' ≡
          columnsVal m columns + 2 ^ pos * ((x.value m).toNat * bitsVal m bs)
          [MOD 2 ^ columns.length] := by
  induction bs generalizing s pos columns with
  | nil => exact .ret ⟨rfl, carried, fun m _ => by simp [Nat.ModEq]⟩
  | cons b bs ih =>
    obtain ⟨hb₀, hb⟩ := Stage.has_cons.mp hb
    unfold addRow
    split
    · next past =>
      -- Everything that is left lies past the last column.
      refine .ret ⟨rfl, carried, fun m _ => ?_⟩
      exact ((weight_modEq_zero past _).add_left _).symm
    · next within =>
      refine (gateAnd_builds (.self hx) (sig_means hosts hb₀)).bind fun pp s₁ step₁ hpp => ?_
      -- The product counts one at its weight.
      have pushed : ∀ m, s₁.Live m →
          columnsVal m (if pp = .false then columns else columns.modify pos (· ++ [pp])) =
            columnsVal m columns + 2 ^ pos * ((x.value m).toNat * (m b).toNat) := by
        intro m live
        have product : (pp.value m).toNat = (x.value m).toNat * (m b).toNat := by
          rw [hpp.value m live]
          cases x.value m <;> cases m b <;> rfl
        split
        · next zero =>
          rw [zero, Sig.value_false] at product
          simp [← product]
        · rw [columnsVal_modify pp pos (by omega), product]
      have length : (if pp = .false then columns else
          columns.modify pos (· ++ [pp])).length = columns.length := by
        split
        · rfl
        · exact length_modify _ _ _
      have carried' : CarriedColumns s₁
          (if pp = .false then columns else columns.modify pos (· ++ [pp])) := by
        split
        · exact carried.later step₁
        · exact (carried.later step₁).modify pos hpp.below
      refine (ih (hosts.later step₁) (hx.mono step₁.next_le) (hb.later step₁) carried').imp
        fun columns' s₂ step₂ ⟨length', carried'', counts⟩ => ?_
      refine ⟨length'.trans length, carried'', fun m live => ?_⟩
      have rest := counts m live
      dsimp only at rest ⊢
      rw [length, pushed m (step₂.narrows m live)] at rest
      convert rest using 1
      rw [bitsVal_cons, pow_succ]
      ring

theorem addRows_builds {as bs : List Nat} {i : Nat} (hosts : Hosts k s) (ha : s.Has as)
    (hb : s.Has bs) (carried : CarriedColumns s columns) :
    Builds s (addRows k bs as i columns) fun columns' s' =>
      columns'.length = columns.length ∧ CarriedColumns s' columns' ∧ s'.Entails fun m =>
        columnsVal m columns' ≡
          columnsVal m columns + 2 ^ i * (bitsVal m as * bitsVal m bs)
          [MOD 2 ^ columns.length] := by
  induction as generalizing s i columns with
  | nil => exact .ret ⟨rfl, carried, fun m _ => by simp [Nat.ModEq]⟩
  | cons a as ih =>
    obtain ⟨ha₀, ha⟩ := Stage.has_cons.mp ha
    have read : Means s (sig k a) fun m => m a := sig_means hosts ha₀
    unfold addRows
    split
    · next zero =>
      -- A constant zero adds no row.
      refine (ih hosts ha hb carried).imp fun columns' s₁ step₁ ⟨length, carried', counts⟩ => ?_
      refine ⟨length, carried', fun m live => ?_⟩
      have off := read.value m (step₁.narrows m live)
      rw [zero, Sig.value_false] at off
      have rest := counts m live
      dsimp only at rest ⊢
      convert rest using 1
      rw [bitsVal_cons, ← off, Bool.toNat_false, pow_succ]
      ring
    · refine (addRow_builds hosts read.below hb carried).bind
        fun columns₁ s₁ step₁ ⟨length₁, carried₁, counts₁⟩ => ?_
      refine (ih (hosts.later step₁) (ha.later step₁) (hb.later step₁) carried₁).imp
        fun columns' s₂ step₂ ⟨length, carried', counts⟩ => ?_
      refine ⟨length.trans length₁, carried', fun m live => ?_⟩
      have before := step₂.narrows m live
      have row := counts₁ m before
      have rest := counts m live
      dsimp only at row rest ⊢
      rw [length₁] at rest
      rw [read.value m (step₁.narrows m before)] at row
      -- The row of the first bit and those of the others.
      have both := rest.trans (row.add_right _)
      convert both using 1
      rw [bitsVal_cons, pow_succ]
      ring

theorem carried_nil : Carried s [] := fun _ mem => (nomatch mem)

theorem length_pushSig (z : Sig) (column : List Sig) :
    (pushSig z column).length ≤ column.length + 1 := by
  unfold pushSig
  split <;> simp

theorem carried_pushSig {z : Sig} {column : List Sig} (hz : z.Below s.list.next)
    (carried : Carried s column) : Carried s (pushSig z column) := by
  unfold pushSig
  split
  · exact carried
  · exact carried_cons.mpr ⟨hz, carried⟩

theorem carried_firstBit (carried : CarriedColumns s columns) :
    Carried s (columns.map firstBit) := by
  intro z mem
  obtain ⟨column, lies, rfl⟩ := mem_map.mp mem
  match column, carried column lies with
  | [], _ => exact below_false _
  | x :: _, bits => exact bits x mem_cons_self

theorem carried_secondBit (carried : CarriedColumns s columns) :
    Carried s (columns.map secondBit) := by
  intro z mem
  obtain ⟨column, lies, rfl⟩ := mem_map.mp mem
  match column, carried column lies with
  | [], _ | [_], _ => exact below_false _
  | _ :: y :: _, bits => exact bits y (by simp)

theorem compressColumn_builds {column : List Sig} (carried : Carried s column) :
    Builds s (compressColumn column) fun r s' =>
      Carried s' r.1 ∧ Carried s' r.2 ∧ r.1.length + r.2.length ≤ column.length ∧
        (2 < column.length → r.1.length + r.2.length < column.length) ∧
        s'.Entails fun m => columnVal m r.1 + 2 * columnVal m r.2 = columnVal m column := by
  induction column using compressColumn.induct generalizing s with
  | case1 x y z rest ih =>
    obtain ⟨hx, others⟩ := carried_cons.mp carried
    obtain ⟨hy, others⟩ := carried_cons.mp others
    obtain ⟨hz, others⟩ := carried_cons.mp others
    refine (gateFullAdder_builds (.self hx) (.self hy) (.self hz)).bind
      fun r s₁ step₁ ⟨hsum, hcarry⟩ => ?_
    refine (ih (others.later step₁)).bind fun r' s₂ step₂ ⟨sums, carries, le, _, counts⟩ => ?_
    have lengthSum := length_pushSig r.1 r'.1
    have lengthCarry := length_pushSig r.2 r'.2
    refine .ret ⟨carried_pushSig (hsum.below.mono step₂.next_le) sums,
      carried_pushSig (hcarry.below.mono step₂.next_le) carries, ?_, ?_, fun m live => ?_⟩
    · simp only [length_cons]
      omega
    · intro _
      simp only [length_cons]
      omega
    · -- The full adder counts its three inputs.
      have before := step₂.narrows m live
      have adder := fullAdder_count (x.value m) (y.value m) (z.value m)
      rw [← hsum.value m before, ← hcarry.value m before] at adder
      have tail := counts m live
      dsimp only at tail ⊢
      simp only [columnVal_pushSig, columnVal_cons]
      omega
  | case2 rest few =>
    have short : rest.length ≤ 2 := by
      match rest, few with
      | [], _ | [_], _ | [_, _], _ => simp
      | x :: y :: z :: others, few => exact absurd rfl (few x y z others)
    have same : compressColumn rest = pure (rest.filter (· ≠ .false), []) := by
      match rest, few with
      | [], _ | [_], _ | [_, _], _ => rfl
      | x :: y :: z :: others, few => exact absurd rfl (few x y z others)
    rw [same]
    refine .ret ⟨fun z mem => carried z (mem_of_mem_filter mem),
      carried_nil, ?_, fun many => by omega, fun m _ => ?_⟩
    · simpa using length_filter_le _ rest
    · dsimp only
      rw [columnVal_filter, columnVal_nil, mul_zero, add_zero]

theorem compressColumns_builds {carriesIn : List Sig} (carried : CarriedColumns s columns)
    (carriedIn : Carried s carriesIn) :
    Builds s (compressColumns columns carriesIn) fun columns' s' =>
      columns'.length = columns.length ∧ CarriedColumns s' columns' ∧
        size columns' ≤ size columns + carriesIn.length ∧
        ((∃ column ∈ columns, 2 < column.length) →
          size columns' < size columns + carriesIn.length) ∧
        s'.Entails fun m =>
          columnsVal m columns' ≡ columnsVal m columns + columnVal m carriesIn
            [MOD 2 ^ columns.length] := by
  induction columns generalizing s carriesIn with
  | nil =>
    -- Carries past the last column are dropped.
    refine .ret ⟨rfl, carried, by simp [size], fun ⟨_, mem, _⟩ => (nomatch mem),
      fun m _ => ?_⟩
    simp [Nat.ModEq, mod_one]
  | cons column columns ih =>
    obtain ⟨first, others⟩ := carriedColumns_cons.mp carried
    refine (compressColumn_builds first).bind
      fun r s₁ step₁ ⟨sums, carries, le, less, counts⟩ => ?_
    refine (ih (others.later step₁) carries).bind
      fun rest s₂ step₂ ⟨length, carriedRest, leRest, lessRest, countsRest⟩ => ?_
    refine .ret ⟨by simp [length], forall_mem_cons.mpr ⟨?_, carriedRest⟩, ?_, ?_,
      fun m live => ?_⟩
    · exact forall_mem_append.mpr
        ⟨(carriedIn.later step₁).later step₂, sums.later step₂⟩
    · simp only [size, map_cons, sum_cons, length_append] at leRest ⊢
      omega
    · rintro ⟨high, mem, many⟩
      simp only [size, map_cons, sum_cons, length_append] at leRest lessRest ⊢
      rcases mem_cons.mp mem with rfl | mem
      · have := less many
        omega
      · have := lessRest ⟨high, mem, many⟩
        omega
    · -- Twice the carries of this column count with the rest.
      have here := counts m (step₂.narrows m live)
      have there := countsRest m live
      dsimp only at here there ⊢
      have doubled : 2 * columnsVal m rest ≡ 2 * (columnsVal m columns + columnVal m r.2)
          [MOD 2 ^ (columns.length + 1)] := by
        rw [pow_succ']
        exact there.mul_left' 2
      have whole := doubled.add_left (columnVal m carriesIn + columnVal m r.1)
      rw [columnsVal_cons, columnsVal_cons, columnVal_append, ← here, length_cons]
      convert whole using 1
      ring

theorem length_le_size {column : List Sig} (mem : column ∈ columns) :
    column.length ≤ size columns := by
  induction columns with
  | nil => cases mem
  | cons first columns ih =>
    simp only [size, map_cons, sum_cons] at ih ⊢
    rcases mem_cons.mp mem with rfl | mem
    · omega
    · have := ih mem
      omega

theorem reduceColumns_builds {fuel : Nat} (enough : size columns ≤ fuel)
    (carried : CarriedColumns s columns) :
    Builds s (reduceColumns fuel columns) fun columns' s' =>
      columns'.length = columns.length ∧ CarriedColumns s' columns' ∧
        (∀ column ∈ columns', column.length ≤ 2) ∧
        s'.Entails fun m =>
          columnsVal m columns' ≡ columnsVal m columns [MOD 2 ^ columns.length] := by
  induction fuel generalizing s columns with
  | zero =>
    refine .ret ⟨rfl, carried, fun column mem => ?_, fun m _ => Nat.ModEq.refl _⟩
    have part := length_le_size mem
    omega
  | succ fuel ih =>
    unfold reduceColumns
    split
    · next few =>
      refine .ret ⟨rfl, carried, ?_, fun m _ => Nat.ModEq.refl _⟩
      simpa using few
    · next many =>
      have many : ∃ column ∈ columns, 2 < column.length := by simpa using many
      refine (compressColumns_builds carried carried_nil).bind
        fun columns₁ s₁ step₁ ⟨length₁, carried₁, _, less, counts₁⟩ => ?_
      -- The round removed a bit.
      have enough₁ : size columns₁ ≤ fuel := by
        have := less many
        simp only [length_nil] at this
        omega
      refine (ih enough₁ carried₁).imp fun columns' s₂ step₂ ⟨length, carried', few, counts⟩ => ?_
      refine ⟨length.trans length₁, carried', few, fun m live => ?_⟩
      have before := counts₁ m (step₂.narrows m live)
      have after := counts m live
      dsimp only at before after ⊢
      rw [length₁] at after
      simpa using after.trans before

theorem columnsVal_two_rows (few : ∀ column ∈ columns, column.length ≤ 2) :
    columnsVal m columns = bitsVal (Sig.value m) (columns.map firstBit) +
      bitsVal (Sig.value m) (columns.map secondBit) := by
  induction columns with
  | nil => rfl
  | cons column columns ih =>
    obtain ⟨first, others⟩ := forall_mem_cons.mp few
    rw [columnsVal_cons, ih others, map_cons, map_cons, bitsVal_cons, bitsVal_cons]
    have split : columnVal m column =
        ((firstBit column).value m).toNat + ((secondBit column).value m).toNat := by
      match column, first with
      | [], _ => simp [firstBit, secondBit]
      | [x], _ => simp [firstBit, secondBit]
      | [x, y], _ => simp [firstBit, secondBit]
    rw [split]
    ring

theorem reduceColumnsAndAdd_asserts {result : List Nat}
    (length : columns.length = result.length) (has : s.Has result)
    (carried : CarriedColumns s columns) :
    Asserts s (reduceColumnsAndAdd result columns) fun m =>
      bitsVal m result = columnsVal m columns % 2 ^ result.length := by
  intro aim
  refine (reduceColumns_builds (le_refl _) carried).bind
    fun columns₁ s₁ step₁ ⟨length₁, carried₁, few, counts⟩ => ?_
  -- The two rows add up to the number of the columns.
  have rows : ∀ m, s₁.Live m → (bitsVal (Sig.value m) (columns₁.map firstBit) +
        bitsVal (Sig.value m) (columns₁.map secondBit)) % 2 ^ result.length =
      columnsVal m columns % 2 ^ result.length := by
    intro m live
    have kept := counts m live
    dsimp only at kept
    rw [length] at kept
    rw [← columnsVal_two_rows few]
    exact kept
  refine (ripple_builds (by simp [length₁, length]) (by simp [length₁, length])
    (has.later step₁) (carried_firstBit carried₁) (carried_secondBit carried₁) (below_false _)
    fun h m live => ?_).bind fun c s₂ step₂ ⟨_, adds⟩ => .ret fun m live => ?_
  · have whole := aim.later step₁ h m live
    dsimp only at whole ⊢
    rw [Sig.value_false, Bool.toNat_false, add_zero, rows m live, whole]
  · have whole := adds m live
    dsimp only at whole ⊢
    rw [Sig.value_false, Bool.toNat_false, add_zero] at whole
    rw [← rows m (step₂.narrows m live), ← whole, add_mul_mod_self_left,
      mod_eq_of_lt (bitsVal_lt result)]

theorem products_asserts {result a b : List Nat} {width : Nat} (hosts : Hosts k s)
    (length : width = result.length) (has : s.Has result) (ha : s.Has a) (hb : s.Has b) :
    Asserts s (do
        let columns ← addRows k b a 0 (List.replicate width [])
        reduceColumnsAndAdd result columns) fun m =>
      bitsVal m result = bitsVal m a * bitsVal m b % 2 ^ result.length := by
  intro aim
  have empty : CarriedColumns s (replicate width []) := by
    intro column mem
    rw [eq_of_mem_replicate mem]
    exact carried_nil
  refine (addRows_builds hosts ha hb empty).bind
    fun columns s₁ step₁ ⟨length₁, carried, counts⟩ => ?_
  -- The columns start empty.
  have product : ∀ m, s₁.Live m → columnsVal m columns % 2 ^ result.length =
      bitsVal m a * bitsVal m b % 2 ^ result.length := by
    intro m live
    have whole := counts m live
    dsimp only at whole
    rw [columnsVal_replicate, length_replicate, length, zero_add, pow_zero,
      one_mul] at whole
    exact whole
  refine (reduceColumnsAndAdd_asserts
    (by rw [length₁, length_replicate, length]) (has.later step₁) carried
    fun h m live => ?_).imp fun _ s₂ step₂ holds => fun m live => ?_
  · dsimp only
    rw [product m live]
    exact aim.later step₁ h m live
  · dsimp only
    rw [← product m (step₂.narrows m live)]
    exact holds m live

theorem encodeMul_asserts {result a b : List Nat} (hosts : Hosts k s) (has : s.Has result)
    (ha : s.Has a) (hb : s.Has b) :
    Asserts s (encodeMul k result a b) fun m =>
      bitsVal m result = bitsVal m a * bitsVal m b % 2 ^ result.length :=
  products_asserts hosts rfl has ha hb

theorem encodeMulFull_asserts {result a b : List Nat} (hosts : Hosts k s)
    (length : result.length = 2 * a.length) (lengthB : b.length = a.length) (has : s.Has result)
    (ha : s.Has a) (hb : s.Has b) :
    Asserts s (encodeMulFull k result a b) fun m =>
      bitsVal m result = bitsVal m a * bitsVal m b := by
  refine (products_asserts hosts length.symm has ha hb).congr fun m _ => ?_
  have small : bitsVal m a * bitsVal m b < 2 ^ result.length := by
    rw [length, two_mul, pow_add]
    have right : bitsVal m b < 2 ^ a.length := lengthB ▸ bitsVal_lt b
    exact mul_lt_mul'' (bitsVal_lt a) right
  rw [mod_eq_of_lt small]

end Nixie.Bv.Circuit
