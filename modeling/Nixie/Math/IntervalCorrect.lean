import Nixie.Math.Interval

/-! What interval operations enclose, and when zero is lost. -/

namespace Nixie.Math

open List

namespace Bound

/-- A number is above the lower end of an interval, or the end itself if it is part of that. -/
def Starts (b : Bound) (isOpen : Bool) (x : ℚ) : Prop :=
  b ≤ finite x ∧ (isOpen = true → b ≠ finite x)

/-- A number is below the upper end of an interval, or the end itself if it is part of that. -/
def Ends (b : Bound) (isOpen : Bool) (x : ℚ) : Prop := finite x ≤ b ∧ (isOpen = true → finite x ≠ b)

theorem ends_iff_starts {b : Bound} {isOpen : Bool} {x : ℚ} :
    b.Ends isOpen x ↔ b.negate.Starts isOpen (-x) := by
  have eq : finite (-x) = (finite x).negate := rfl
  rw [Ends, Starts, eq, negate_le_negate, ne_eq, ne_eq, negate_injective.eq_iff]
  exact and_congr_right fun _ => imp_congr_right fun _ => not_congr eq_comm

theorem exists_add_starts {a b : Bound} (left : a ≠ posInf) (right : b ≠ posInf) :
    ∃ c, a.add b = some c ∧ ∀ {o o' x y}, a.Starts o x → b.Starts o' y →
      c.Starts (o || o') (x + y) := by
  have always {o : Bool} {x : ℚ} : negInf.Starts o x := ⟨negInf_le _, fun _ => nofun⟩
  cases a with
  | posInf => exact absurd rfl left
  | negInf =>
    cases b with
    | posInf => exact absurd rfl right
    | negInf | finite => exact ⟨negInf, rfl, fun _ _ => always⟩
  | finite r =>
    cases b with
    | posInf => exact absurd rfl right
    | negInf => exact ⟨negInf, rfl, fun _ _ => always⟩
    | finite s =>
      refine ⟨finite (r + s), rfl, fun {o o' x y} ⟨le, strict⟩ ⟨le', strict'⟩ => ?_⟩
      have le := finite_le_finite.mp le
      have le' := finite_le_finite.mp le'
      refine ⟨finite_le_finite.mpr (add_le_add le le'), fun isOpen eq => ?_⟩
      have sum : r + s = x + y := finite.inj eq
      -- Both numbers are the ends themselves.
      have same : r = x := by linarith
      have same' : s = y := by linarith
      rcases Bool.or_eq_true _ _ ▸ isOpen with isOpen | isOpen
      · exact strict isOpen (congrArg finite same)
      · exact strict' isOpen (congrArg finite same')

theorem add_negate (a b : Bound) : a.negate.add b.negate = (a.add b).map negate := by
  cases a <;> cases b <;> simp [add, negate, add_comm]

theorem exists_add_ends {a b : Bound} (left : a ≠ negInf) (right : b ≠ negInf) :
    ∃ c, a.add b = some c ∧ ∀ {o o' x y}, a.Ends o x → b.Ends o' y →
      c.Ends (o || o') (x + y) := by
  obtain ⟨c, eq, starts⟩ := exists_add_starts (negate_eq_posInf.not.mpr left)
    (negate_eq_posInf.not.mpr right)
  rw [add_negate] at eq
  obtain ⟨d, added, rfl⟩ := Option.map_eq_some_iff.mp eq
  refine ⟨d, added, fun {o o' x y} ends ends' => ?_⟩
  rw [ends_iff_starts, neg_add]
  exact starts (ends_iff_starts.mp ends) (ends_iff_starts.mp ends')

end Bound

namespace Interval

open Nixie.Math.Bound

variable {a b : Interval} {x y : ℚ}

theorem contains_iff : a.contains x = true ↔ a.lo.Starts a.loOpen x ∧ a.hi.Ends a.hiOpen x := by
  rw [contains, Bool.and_eq_true]
  refine and_congr ?_ ?_
  · rw [cmpBound_eq_compare, Starts]
    rcases lt_trichotomy a.lo (finite x) with less | same | more
    · simp [compare_lt_iff_lt.mpr less, less.le, less.ne]
    · simp [same]
    · simp [compare_gt_iff_gt.mpr more, more.not_ge]
  · rw [cmpBound_eq_compare, Ends]
    rcases lt_trichotomy (finite x) a.hi with less | same | more
    · simp [compare_lt_iff_lt.mpr less, less.le, less.ne]
    · simp [same]
    · simp [compare_gt_iff_gt.mpr more, more.not_ge]

theorem isEmpty_eq_false_iff :
    a.isEmpty = false ↔ a.lo < a.hi ∨ a.lo = a.hi ∧ a.loOpen = false ∧ a.hiOpen = false := by
  rw [isEmpty, cmpBound_eq_compare]
  rcases lt_trichotomy a.lo a.hi with less | same | more
  · simp [compare_lt_iff_lt.mpr less, less]
  · simp [same]
  · simp [compare_gt_iff_gt.mpr more, more.not_gt, more.ne']

theorem isEmpty_eq_false (mem : a.contains x = true) : a.isEmpty = false := by
  obtain ⟨⟨lower, strict⟩, upper, strict'⟩ := contains_iff.mp mem
  rw [isEmpty_eq_false_iff]
  rcases (lower.trans upper).lt_or_eq with less | same
  · exact .inl less
  · -- The number is both ends, so they are closed.
    have left : a.lo = finite x := le_antisymm lower (upper.trans same.ge)
    have right : finite x = a.hi := left.symm.trans same
    exact .inr ⟨same, Bool.not_eq_true _ ▸ fun isOpen => strict isOpen left,
      Bool.not_eq_true _ ▸ fun isOpen => strict' isOpen right⟩

/-- An interval that is not empty does not start or end at the wrong infinity. -/
def WellFormed (i : Interval) : Prop := i.isEmpty = false → i.lo ≠ .posInf ∧ i.hi ≠ .negInf

theorem WellFormed.exists_contains (wellFormed : a.WellFormed) (some_ : a.isEmpty = false) :
    ∃ x, a.contains x = true := by
  obtain ⟨left, right⟩ := wellFormed some_
  rcases isEmpty_eq_false_iff.mp some_ with less | ⟨same, closedLo, closedHi⟩
  · obtain ⟨x, lower, upper⟩ := exists_finite_between less
    exact ⟨x, contains_iff.mpr ⟨⟨lower.le, fun _ => lower.ne⟩, upper.le, fun _ => upper.ne⟩⟩
  · -- Only a number can be both ends.
    cases eq : a.lo with
    | posInf => exact absurd eq left
    | negInf => exact absurd (same.symm.trans eq) right
    | finite x =>
      refine ⟨x, contains_iff.mpr ⟨⟨eq.le, ?_⟩, (eq ▸ same).le, ?_⟩⟩
      · rw [closedLo]
        exact nofun
      · rw [closedHi]
        exact nofun

theorem contains_negate : a.negate.contains x = a.contains (-x) := by
  rw [Bool.eq_iff_iff, contains_iff, contains_iff, negate]
  have starts : a.hi.negate.Starts a.hiOpen x ↔ a.hi.Ends a.hiOpen (-x) := by
    rw [ends_iff_starts, neg_neg]
  have ends : a.lo.negate.Ends a.loOpen x ↔ a.lo.Starts a.loOpen (-x) := by
    rw [ends_iff_starts, negate_negate]
  rw [starts, ends, and_comm]

theorem isEmpty_negate (a : Interval) : a.negate.isEmpty = a.isEmpty := by
  have lt : a.hi.negate < a.lo.negate ↔ a.lo < a.hi := lt_iff_lt_of_le_iff_le negate_le_negate
  have eq : a.hi.negate = a.lo.negate ↔ a.lo = a.hi := by
    rw [negate_injective.eq_iff, eq_comm]
  rw [← Bool.not_inj_iff, Bool.eq_iff_iff, Bool.not_eq_true', Bool.not_eq_true',
    isEmpty_eq_false_iff, isEmpty_eq_false_iff, negate, lt, eq, and_comm (a := a.hiOpen = false)]

theorem WellFormed.negate (wellFormed : a.WellFormed) : a.negate.WellFormed := by
  intro some_
  obtain ⟨left, right⟩ := wellFormed (isEmpty_negate a ▸ some_)
  exact ⟨negate_eq_posInf.not.mpr right, negate_eq_negInf.not.mpr left⟩

theorem add_encloses (wellFormed : a.WellFormed) (wellFormed' : b.WellFormed) :
    ∃ c, a.add b = some c ∧ ∀ {x y}, a.contains x = true → b.contains y = true →
      c.contains (x + y) = true := by
  rw [add]
  by_cases none_ : (a.isEmpty || b.isEmpty) = true
  · rw [if_pos none_]
    refine ⟨empty, rfl, fun {x y} left right => ?_⟩
    rw [isEmpty_eq_false left, isEmpty_eq_false right] at none_
    cases none_
  · rw [if_neg none_]
    obtain ⟨left, right⟩ : a.isEmpty = false ∧ b.isEmpty = false := by
      simpa using none_
    obtain ⟨lo, eq, starts⟩ := exists_add_starts (wellFormed left).1 (wellFormed' right).1
    obtain ⟨hi, eq', ends⟩ := exists_add_ends (wellFormed left).2 (wellFormed' right).2
    refine ⟨⟨lo, hi, a.loOpen || b.loOpen, a.hiOpen || b.hiOpen⟩, ?_, fun mem mem' => ?_⟩
    · rw [eq, eq']
      rfl
    · obtain ⟨lower, upper⟩ := contains_iff.mp mem
      obtain ⟨lower', upper'⟩ := contains_iff.mp mem'
      exact contains_iff.mpr ⟨starts lower lower', ends upper upper'⟩

/-- An end of an interval, and whether it is not part of that. -/
def IsEnd (i : Interval) (e : Bound) (isOpen : Bool) : Prop :=
  e = i.lo ∧ isOpen = i.loOpen ∨ e = i.hi ∧ isOpen = i.hiOpen

theorem mem_corners {c : Bound × Bool} :
    c ∈ a.corners b ↔ ∃ e o e' o', a.IsEnd e o ∧ b.IsEnd e' o' ∧ c = (e.mul e', o || o') := by
  have lo (i : Interval) : i.IsEnd i.lo i.loOpen := .inl ⟨rfl, rfl⟩
  have hi (i : Interval) : i.IsEnd i.hi i.hiOpen := .inr ⟨rfl, rfl⟩
  simp only [corners, mem_cons, not_mem_nil, or_false]
  constructor
  · rintro (rfl | rfl | rfl | rfl)
    · exact ⟨_, _, _, _, lo a, lo b, rfl⟩
    · exact ⟨_, _, _, _, lo a, hi b, rfl⟩
    · exact ⟨_, _, _, _, hi a, lo b, rfl⟩
    · exact ⟨_, _, _, _, hi a, hi b, rfl⟩
  · rintro ⟨e, o, e', o', ⟨rfl, rfl⟩ | ⟨rfl, rfl⟩, ⟨rfl, rfl⟩ | ⟨rfl, rfl⟩, rfl⟩
    · exact .inl rfl
    · exact .inr (.inl rfl)
    · exact .inr (.inr (.inl rfl))
    · exact .inr (.inr (.inr rfl))

theorem IsEnd.closed {e : Bound} {isOpen : Bool} (end_ : a.IsEnd e isOpen)
    (mem : a.contains x = true) (same : e = finite x) : isOpen = false := by
  obtain ⟨⟨-, strict⟩, -, strict'⟩ := contains_iff.mp mem
  rw [← Bool.not_eq_true]
  rcases end_ with ⟨rfl, rfl⟩ | ⟨rfl, rfl⟩
  · exact fun isOpen => strict isOpen same
  · exact fun isOpen => strict' isOpen same.symm

/-- What is common to finding the least and the greatest corner. -/
structure Direction (r : Bound → Bound → Prop) : Prop where
  trans : ∀ {c d e}, r c d → r d e → r c e
  antisymm : ∀ {c d}, r c d → r d c → c = d
  ends : ∀ (d : Bound) {i : Interval} {x}, i.contains x = true →
    ∃ e o, i.IsEnd e o ∧ r (d.mul e) (d.mul (finite x))
  -- Only zero has products of one sign with a negative and with a positive end.
  zero : ∀ {d e c : Bound}, d < 0 → 0 < e → r 0 (d.mul c) → r 0 (e.mul c) → c = 0

theorem direction_le : Direction (· ≤ ·) where
  trans := le_trans
  antisymm := le_antisymm
  ends d i x mem := by
    obtain ⟨⟨lower, -⟩, upper, -⟩ := contains_iff.mp mem
    rcases le_total 0 d with nonneg | nonpos
    · exact ⟨i.lo, i.loOpen, .inl ⟨rfl, rfl⟩, mul_monotone nonneg lower⟩
    · exact ⟨i.hi, i.hiOpen, .inr ⟨rfl, rfl⟩, mul_antitone nonpos upper⟩
  zero {d e c} neg pos left right := by
    rcases le_total 0 c with nonneg | nonpos
    · have product := le_antisymm (mul_comm d c ▸ mul_nonpos nonneg neg.le) left
      exact (mul_eq_zero.mp product).resolve_left neg.ne
    · have product := le_antisymm (mul_nonpos pos.le nonpos) right
      exact (mul_eq_zero.mp product).resolve_left pos.ne'

theorem direction_ge : Direction (· ≥ ·) where
  trans := ge_trans
  antisymm left right := le_antisymm right left
  ends d i x mem := by
    obtain ⟨⟨lower, -⟩, upper, -⟩ := contains_iff.mp mem
    rcases le_total 0 d with nonneg | nonpos
    · exact ⟨i.hi, i.hiOpen, .inr ⟨rfl, rfl⟩, mul_monotone nonneg upper⟩
    · exact ⟨i.lo, i.loOpen, .inl ⟨rfl, rfl⟩, mul_antitone nonpos lower⟩
  zero {d e c} neg pos left right := by
    rcases le_total 0 c with nonneg | nonpos
    · have product := le_antisymm right (mul_nonneg pos.le nonneg)
      exact (mul_eq_zero.mp product).resolve_left pos.ne'
    · have product := le_antisymm left (mul_nonneg_of_nonpos neg.le nonpos)
      exact (mul_eq_zero.mp product).resolve_left neg.ne

/-- The extreme corner in a direction, and whether it is attained. -/
structure Extreme (r : Bound → Bound → Prop) (corners : List (Bound × Bool)) (v : Bound)
    (isOpen : Bool) : Prop where
  extreme : ∀ {c}, c ∈ corners → r v c.1
  mem : ∃ c ∈ corners, c.1 = v
  attained : isOpen = true ↔ ∀ c ∈ corners, c.1 = v → c.2 = true

theorem mem_takeWhile_iff {r : Bound → Bound → Prop} (direction : Direction r)
    {bounds : List (Bound × Bool)} (sorted : bounds.Pairwise fun c d => r c.1 d.1) {v : Bound}
    (extreme : ∀ c ∈ bounds, r v c.1) {c : Bound × Bool} :
    c ∈ bounds.takeWhile (fun c => c.1.cmpBound v == .eq) ↔ c ∈ bounds ∧ c.1 = v := by
  have eq_iff (d : Bound) : (d.cmpBound v == .eq) = true ↔ d = v := by
    rw [beq_iff_eq, cmpBound_eq_compare, compare_eq_iff_eq]
  induction bounds with
  | nil => simp
  | cons d bounds ih =>
    obtain ⟨first, sorted⟩ := pairwise_cons.mp sorted
    obtain ⟨extremeHead, extreme⟩ := forall_mem_cons.mp extreme
    by_cases same : d.1 = v
    · rw [takeWhile_cons, if_pos ((eq_iff _).mpr same), mem_cons, mem_cons, or_and_right]
      exact or_congr ⟨fun eq => ⟨eq, eq ▸ same⟩, And.left⟩ (ih sorted extreme)
    · rw [takeWhile_cons, if_neg ((eq_iff _).not.mpr same)]
      refine iff_of_false not_mem_nil fun ⟨mem, eq⟩ => ?_
      rcases mem_cons.mp mem with rfl | mem
      · exact same eq
      · -- Later entries are further away.
        exact same (direction.antisymm (eq ▸ first c mem) extremeHead)

theorem extreme_spec {r : Bound → Bound → Prop} (direction : Direction r)
    (refl : ∀ c, r c c) {bounds corners : List (Bound × Bool)} (perm : bounds.Perm corners)
    (some_ : corners ≠ []) (sorted : bounds.Pairwise fun c d => r c.1 d.1) :
    Extreme r corners (extreme bounds).1 (extreme bounds).2 := by
  cases bounds with
  | nil => exact absurd (perm.nil_eq) some_.symm
  | cons c bounds =>
    have first : ∀ d ∈ c :: bounds, r c.1 d.1 :=
      forall_mem_cons.mpr ⟨refl _, (pairwise_cons.mp sorted).1⟩
    refine ⟨fun {d} mem => first d (perm.mem_iff.mpr mem),
      ⟨c, perm.mem_iff.mp mem_cons_self, rfl⟩, ?_⟩
    rw [extreme, all_eq_true]
    simp only [mem_takeWhile_iff direction sorted first, perm.mem_iff, and_imp]

/-- A value is not beyond an extreme one, and is that only if it is attained. -/
def Attains (r : Bound → Bound → Prop) (v : Bound) (isOpen : Bool) (x : ℚ) : Prop :=
  r v (finite x) ∧ (isOpen = true → v ≠ finite x)

section

variable {r : Bound → Bound → Prop} {v : Bound} {isOpen : Bool}

theorem Direction.exists_corner (direction : Direction r) (left : a.contains x = true)
    (right : b.contains y = true) : ∃ c ∈ a.corners b, r c.1 (finite (x * y)) := by
  obtain ⟨e, o, end_, below⟩ := direction.ends (finite x) right
  obtain ⟨e', o', end', below'⟩ := direction.ends e left
  rw [mul_comm e, mul_comm e] at below'
  exact ⟨_, mem_corners.mpr ⟨e', o', e, o, end', end_, rfl⟩, direction.trans below' below⟩

theorem Extreme.attains_of_ne_zero (extreme : Extreme r (a.corners b) v isOpen)
    (direction : Direction r) (left : a.contains x = true) (right : b.contains y = true)
    (other : x * y ≠ 0) : Attains r v isOpen (x * y) := by
  obtain ⟨c, mem, below⟩ := direction.exists_corner left right
  refine ⟨direction.trans (extreme.extreme mem) below, fun isOpen_ eq => ?_⟩
  obtain ⟨otherLeft, otherRight⟩ := mul_ne_zero_iff.mp other
  obtain ⟨e, o, end_, below⟩ := direction.ends (finite x) right
  obtain ⟨e', o', end', below'⟩ := direction.ends e left
  rw [mul_comm e, mul_comm e] at below'
  have corner : (e'.mul e, o' || o) ∈ a.corners b := mem_corners.mpr ⟨e', o', e, o, end', end_, rfl⟩
  have beyond := extreme.extreme corner
  have product : v = (finite x).mul (finite y) := eq
  rw [product] at beyond
  -- Both corners are the product itself, so both ends are the numbers.
  have same : (finite x).mul e = (finite x).mul (finite y) :=
    direction.antisymm below (direction.trans beyond below')
  have right' : e = finite y := mul_finite_cancel otherLeft same
  subst right'
  have same' : (finite y).mul e' = (finite y).mul (finite x) := by
    rw [mul_comm _ e', mul_comm (finite y) (finite x)]
    exact direction.antisymm below' beyond
  have left' : e' = finite x := mul_finite_cancel otherRight same'
  subst left'
  have attained := extreme.attained.mp isOpen_ _ corner eq.symm
  rw [end'.closed left rfl, end_.closed right rfl] at attained
  cases attained

/--
A factor ends with zero, the other one has no closed end, and no product lies beyond zero.
-/
structure LosesZero (a b : Interval) : Prop where
  ends : a.IsEnd 0 false
  loOpen : b.loOpen = true
  hiOpen : b.hiOpen = true
  oneSided : b.contains 0 = false ∨ a.lo = 0 ∧ a.hi = 0

theorem isEnd_lo (i : Interval) : i.IsEnd i.lo i.loOpen := .inl ⟨rfl, rfl⟩

theorem isEnd_hi (i : Interval) : i.IsEnd i.hi i.hiOpen := .inr ⟨rfl, rfl⟩

theorem inside_of_contains_zero (mem : a.contains 0 = true) (left : a.lo ≠ 0) (right : a.hi ≠ 0) :
    a.lo < 0 ∧ 0 < a.hi := by
  obtain ⟨⟨lower, -⟩, upper, -⟩ := contains_iff.mp mem
  exact ⟨lt_of_le_of_ne lower left, lt_of_le_of_ne upper right.symm⟩

theorem Extreme.losesZero (extreme : Extreme r (a.corners b) v true) (direction : Direction r)
    (zero : v = 0) (left : a.contains 0 = true) (right : b.contains y = true) :
    LosesZero a b ∨ LosesZero b a := by
  subst zero
  have beyond {e o e' o'} (end_ : a.IsEnd e o) (end' : b.IsEnd e' o') : r 0 (e.mul e') :=
    extreme.extreme (mem_corners.mpr ⟨e, o, e', o', end_, end', rfl⟩)
  have isOpen {e o e' o'} (end_ : a.IsEnd e o) (end' : b.IsEnd e' o') (product : e.mul e' = 0) :
      (o || o') = true :=
    extreme.attained.mp rfl _ (mem_corners.mpr ⟨e, o, e', o', end_, end', rfl⟩) product
  by_cases ends : a.lo = 0 ∨ a.hi = 0
  · -- Zero is an end of the left factor, so both ends of the right one are open.
    have end_ : a.IsEnd 0 false := by
      rcases ends with eq | eq
      · have end_ := isEnd_lo a
        rwa [end_.closed left eq, eq] at end_
      · have end_ := isEnd_hi a
        rwa [end_.closed left eq, eq] at end_
    have loOpen : b.loOpen = true := isOpen end_ (isEnd_lo b) (zero_mul _)
    have hiOpen : b.hiOpen = true := isOpen end_ (isEnd_hi b) (zero_mul _)
    refine .inl ⟨end_, loOpen, hiOpen, ?_⟩
    cases lies : b.contains 0 with
    | false => exact .inl rfl
    | true =>
      obtain ⟨⟨lower, strict⟩, upper, strict'⟩ := contains_iff.mp lies
      have neg : b.lo < 0 := lt_of_le_of_ne lower (strict loOpen)
      have pos : 0 < b.hi := lt_of_le_of_ne upper (strict' hiOpen)
      have zero_ {e o} (end_ : a.IsEnd e o) : e = 0 :=
        direction.zero neg pos (mul_comm e _ ▸ beyond end_ (isEnd_lo b))
          (mul_comm e _ ▸ beyond end_ (isEnd_hi b))
      exact .inr ⟨zero_ (isEnd_lo a), zero_ (isEnd_hi a)⟩
  · -- Zero is inside the left factor, so the right one is zero.
    obtain ⟨otherLo, otherHi⟩ := not_or.mp ends
    obtain ⟨neg, pos⟩ := inside_of_contains_zero left otherLo otherHi
    have zero_ {e o} (end_ : b.IsEnd e o) : e = 0 :=
      direction.zero neg pos (beyond (isEnd_lo a) end_) (beyond (isEnd_hi a) end_)
    have lo := zero_ (isEnd_lo b)
    have hi := zero_ (isEnd_hi b)
    obtain ⟨⟨lower, -⟩, upper, -⟩ := contains_iff.mp right
    have same : b.lo = finite y := lo.trans (le_antisymm (lo.symm.trans_le lower) (upper.trans_eq hi))
    have closed_ : b.loOpen = false := (isEnd_lo b).closed right same
    have end_ : b.IsEnd 0 false := .inl ⟨lo.symm, closed_.symm⟩
    refine .inr ⟨end_, ?_, ?_, .inr ⟨lo, hi⟩⟩
    · exact (Bool.or_false _).symm.trans (isOpen (isEnd_lo a) end_ (mul_zero _))
    · exact (Bool.or_false _).symm.trans (isOpen (isEnd_hi a) end_ (mul_zero _))

theorem Extreme.not_attains_zero (extreme : Extreme r (a.corners b) v isOpen)
    (direction : Direction r) (beyond : ∀ {e o e' o'}, a.IsEnd e o → b.IsEnd e' o' → r 0 (e.mul e'))
    (loses : LosesZero a b) : ¬Attains r v isOpen 0 := by
  intro ⟨_, strict⟩
  have all : ∀ c ∈ a.corners b, c.2 = true := by
    intro c mem
    obtain ⟨e, o, e', o', -, ⟨rfl, rfl⟩ | ⟨rfl, rfl⟩, rfl⟩ := mem_corners.mp mem
    · simp [loses.loOpen]
    · simp [loses.hiOpen]
  obtain ⟨c, mem, rfl⟩ := extreme.mem
  have corner := extreme.extreme (mem_corners.mpr ⟨_, _, _, _, loses.ends, isEnd_lo b, rfl⟩)
  obtain ⟨e, o, e', o', end_, end', rfl⟩ := mem_corners.mp mem
  rw [zero_mul] at corner
  exact strict (extreme.attained.mpr fun c mem _ => all c mem)
    (direction.antisymm corner (beyond end_ end'))

end

theorem IsEnd.one_sided {isOpen : Bool} (end_ : a.IsEnd 0 isOpen) (le : a.lo ≤ a.hi) :
    (∀ {e o}, a.IsEnd e o → 0 ≤ e) ∨ ∀ {e o}, a.IsEnd e o → e ≤ 0 := by
  rcases end_ with ⟨eq, -⟩ | ⟨eq, -⟩
  · left
    rintro e o (⟨rfl, -⟩ | ⟨rfl, -⟩)
    · exact eq.le
    · exact eq.trans_le le
  · right
    rintro e o (⟨rfl, -⟩ | ⟨rfl, -⟩)
    · exact le.trans_eq eq.symm
    · exact eq.ge

theorem le_of_isEmpty_eq_false (some_ : a.isEmpty = false) : a.lo ≤ a.hi := by
  rcases isEmpty_eq_false_iff.mp some_ with less | ⟨eq, -⟩
  · exact less.le
  · exact eq.le

theorem one_sided_of_not_contains (some_ : a.isEmpty = false) (none_ : a.contains 0 = false) :
    (∀ {e o}, a.IsEnd e o → 0 ≤ e) ∨ ∀ {e o}, a.IsEnd e o → e ≤ 0 := by
  have le := le_of_isEmpty_eq_false some_
  rcases le_or_gt 0 a.lo with nonneg | neg
  · left
    rintro e o (⟨rfl, -⟩ | ⟨rfl, -⟩)
    · exact nonneg
    · exact nonneg.trans le
  · have nonpos : a.hi ≤ 0 := by
      by_contra pos
      have mem : a.contains 0 = true := contains_iff.mpr
        ⟨⟨neg.le, fun _ => neg.ne⟩, (not_le.mp pos).le, fun _ => (not_le.mp pos).ne⟩
      rw [mem] at none_
      cases none_
    right
    rintro e o (⟨rfl, -⟩ | ⟨rfl, -⟩)
    · exact neg.le
    · exact nonpos

theorem mul_spec (left : a.isEmpty = false) (right : b.isEmpty = false) :
    ∃ c, a.mul b = c ∧ Extreme (· ≤ ·) (a.corners b) c.lo c.loOpen ∧
      Extreme (· ≥ ·) (a.corners b) c.hi c.hiOpen := by
  have none_ : ¬(a.isEmpty || b.isEmpty) = true := by simp [left, right]
  have le_iff (c d : Bound × Bool) : (c.1.cmpBound d.1 != .gt) = true ↔ c.1 ≤ d.1 := by
    rw [bne_iff_ne, cmpBound_eq_compare, ne_eq, compare_gt_iff_gt, not_lt]
  have sorted : ((a.corners b).mergeSort fun c d => c.1.cmpBound d.1 != .gt).Pairwise
      fun c d => c.1 ≤ d.1 := by
    refine (pairwise_mergeSort (fun c d e first second => ?_) (fun c d => ?_) _).imp
      fun {c d} le => (le_iff c d).mp le
    · exact (le_iff c e).mpr (((le_iff c d).mp first).trans ((le_iff d e).mp second))
    · rw [Bool.or_eq_true, le_iff, le_iff]
      exact le_total c.1 d.1
  have perm := mergeSort_perm (a.corners b) fun c d => c.1.cmpBound d.1 != .gt
  refine ⟨_, rfl, ?_⟩
  rw [mul, if_neg none_]
  exact ⟨extreme_spec direction_le le_refl perm (cons_ne_nil _ _) sorted,
    extreme_spec direction_ge le_refl ((reverse_perm _).trans perm) (cons_ne_nil _ _)
      (pairwise_reverse.mpr sorted)⟩

theorem contains_iff_attains : a.contains x = true ↔
    Attains (· ≤ ·) a.lo a.loOpen x ∧ Attains (· ≥ ·) a.hi a.hiOpen x := by
  rw [contains_iff]
  exact and_congr_right fun _ => and_congr_right fun _ =>
    imp_congr_right fun _ => not_congr eq_comm

theorem mem_corners_comm {c : Bound × Bool} : c ∈ a.corners b ↔ c ∈ b.corners a := by
  have swap {a b : Interval} (mem : c ∈ a.corners b) : c ∈ b.corners a := by
    obtain ⟨e, o, e', o', end_, end', rfl⟩ := mem_corners.mp mem
    exact mem_corners.mpr ⟨e', o', e, o, end', end_, by rw [mul_comm, Bool.or_comm]⟩
  exact ⟨swap, swap⟩

theorem Extreme.comm {r : Bound → Bound → Prop} {v : Bound} {isOpen : Bool}
    (extreme : Extreme r (a.corners b) v isOpen) : Extreme r (b.corners a) v isOpen := by
  obtain ⟨extreme, mem, attained⟩ := extreme
  refine ⟨fun member => extreme (mem_corners_comm.mpr member), ?_, ?_⟩
  · simpa only [mem_corners_comm] using mem
  · simpa only [mem_corners_comm] using attained

theorem contains_mul_of_ne_zero (left : a.contains x = true) (right : b.contains y = true)
    (other : x * y ≠ 0) : (a.mul b).contains (x * y) = true := by
  obtain ⟨c, rfl, least, greatest⟩ := mul_spec (isEmpty_eq_false left) (isEmpty_eq_false right)
  exact contains_iff_attains.mpr ⟨least.attains_of_ne_zero direction_le left right other,
    greatest.attains_of_ne_zero direction_ge left right other⟩

theorem LosesZero.not_contains_zero (loses : LosesZero a b) (left : a.isEmpty = false)
    (right : b.isEmpty = false) {c : Interval} (least : Extreme (· ≤ ·) (a.corners b) c.lo c.loOpen)
    (greatest : Extreme (· ≥ ·) (a.corners b) c.hi c.hiOpen) : ¬c.contains 0 = true := by
  rw [contains_iff_attains, not_and_or]
  rcases loses.oneSided with none_ | ⟨lo, hi⟩
  · -- Both factors are on one side of zero, and so are their products.
    rcases loses.ends.one_sided (le_of_isEmpty_eq_false left) with nonneg | nonpos
    · rcases one_sided_of_not_contains right none_ with nonneg' | nonpos'
      · exact .inl (least.not_attains_zero direction_le
          (fun end_ end' => mul_nonneg (nonneg end_) (nonneg' end')) loses)
      · exact .inr (greatest.not_attains_zero direction_ge
          (fun end_ end' => mul_nonpos (nonneg end_) (nonpos' end')) loses)
    · rcases one_sided_of_not_contains right none_ with nonneg' | nonpos'
      · exact .inr (greatest.not_attains_zero direction_ge
          (fun end_ end' => mul_comm _ _ ▸ mul_nonpos (nonneg' end') (nonpos end_)) loses)
      · exact .inl (least.not_attains_zero direction_le
          (fun end_ end' => mul_nonneg_of_nonpos (nonpos end_) (nonpos' end')) loses)
  · -- All products are zero.
    refine .inl (least.not_attains_zero direction_le (fun {e o e' o'} end_ end' => ?_) loses)
    have zero_ : e = 0 := by
      rcases end_ with ⟨rfl, -⟩ | ⟨rfl, -⟩
      · exact lo
      · exact hi
    rw [zero_, zero_mul]

theorem contains_mul_zero_iff (left : a.contains x = true) (right : b.contains y = true)
    (zero : x * y = 0) :
    (a.mul b).contains 0 = true ↔ ¬LosesZero a b ∧ ¬LosesZero b a := by
  have someLeft := isEmpty_eq_false left
  have someRight := isEmpty_eq_false right
  obtain ⟨c, rfl, least, greatest⟩ := mul_spec someLeft someRight
  constructor
  · intro contains
    exact ⟨fun loses => loses.not_contains_zero someLeft someRight least greatest contains,
      fun loses => loses.not_contains_zero someRight someLeft least.comm greatest.comm contains⟩
  · intro ⟨keeps, keeps'⟩
    -- An end of zero that is not attained would be lost.
    have attained {r v isOpen} (extreme : Extreme r (a.corners b) v isOpen)
        (direction : Direction r) (isOpen_ : isOpen = true) : v ≠ finite 0 := by
      intro eq
      subst isOpen_
      rcases Rat.mul_eq_zero.mp zero with rfl | rfl
      · exact (extreme.losesZero direction eq left right).elim keeps keeps'
      · exact (extreme.comm.losesZero direction eq right left).elim keeps' keeps
    have below {r v isOpen} (extreme : Extreme r (a.corners b) v isOpen)
        (direction : Direction r) : r v (finite 0) := by
      obtain ⟨d, mem, beyond⟩ := direction.exists_corner left right
      exact zero ▸ direction.trans (extreme.extreme mem) beyond
    exact contains_iff_attains.mpr ⟨⟨below least direction_le, attained least direction_le⟩,
      below greatest direction_ge, attained greatest direction_ge⟩

end Interval

end Nixie.Math
