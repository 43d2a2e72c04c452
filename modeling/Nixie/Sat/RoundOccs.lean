import Mathlib.Algebra.Group.Nat.Defs
import Mathlib.Data.List.Basic
import Mathlib.Order.Monotone.Basic
import Mathlib.Order.Nat

/-! Occurrence lists of an elimination round: spans of one pool, with an overflow for each literal. -/

namespace Nixie.Sat

open List Function

/-- Occurrence lists by literal code; the arrays hold the default entry beyond their length. -/
structure RoundOccs where
  primary : Nat → Nat
  /-- End of the span of each literal in the pool. -/
  spanEnd : Nat → Nat
  primLen : Nat → Nat
  /-- Entries added during the round, in the order of arrival. -/
  extra : Nat → List Nat

namespace RoundOccs

def u32Max : Nat := 2 ^ 32 - 1

/-- Ends of spans that follow one another, by a sum that saturates. -/
def layoutEnd (counts : Nat → Nat) : Nat → Nat
  | 0 => min (counts 0) u32Max
  | code + 1 => min (layoutEnd counts code + counts (code + 1)) u32Max

def layout (counts : Nat → Nat) : RoundOccs where
  primary := fun _ => 0
  spanEnd := layoutEnd counts
  primLen := fun _ => 0
  extra := fun _ => []

def spanStart (occs : RoundOccs) : Nat → Nat
  | 0 => 0
  | code + 1 => occs.spanEnd code

def combined (occs : RoundOccs) (code : Nat) : List Nat :=
  (range' (occs.spanStart code) (occs.primLen code)).map occs.primary ++ occs.extra code

def connect (occs : RoundOccs) (code cid : Nat) : RoundOccs :=
  { occs with
    primary := update occs.primary (occs.spanStart code + occs.primLen code) cid
    primLen := update occs.primLen code (occs.primLen code + 1) }

def push (occs : RoundOccs) (code cid : Nat) : RoundOccs :=
  { occs with extra := update occs.extra code (occs.extra code ++ [cid]) }

def swapRemove (occs : RoundOccs) (code pos : Nat) : RoundOccs :=
  let start := occs.spanStart code
  let pl := occs.primLen code
  match (occs.extra code).getLast? with
  | some last =>
      let popped := (occs.extra code).dropLast
      if pos < pl then
        { occs with
          primary := update occs.primary (start + pos) last
          extra := update occs.extra code popped }
      -- At the popped entry itself there is nothing to fill.
      else { occs with extra := update occs.extra code (popped.set (pos - pl) last) }
  | none =>
      { occs with
        primary :=
          if pos + 1 < pl then update occs.primary (start + pos) (occs.primary (start + pl - 1))
          else occs.primary
        primLen := update occs.primLen code (pl - 1) }

def clear (occs : RoundOccs) (code : Nat) : RoundOccs :=
  { occs with primLen := update occs.primLen code 0, extra := update occs.extra code [] }

def rewrite (occs : RoundOccs) (code : Nat) (lits : List Nat) : RoundOccs :=
  let start := occs.spanStart code
  let head := min lits.length (occs.spanEnd code - start)
  { occs with
    primary := fun at_ =>
      if start ≤ at_ ∧ at_ < start + head then lits.getD (at_ - start) 0 else occs.primary at_
    primLen := update occs.primLen code head
    extra := update occs.extra code (lits.drop head) }

inductive Op where
  | connect (code cid : Nat)
  | push (code cid : Nat)
  | swapRemove (code pos : Nat)
  | rewrite (code : Nat) (lits : List Nat)
  | clear (code : Nat)
  deriving DecidableEq, Repr

def apply (occs : RoundOccs) : Op → RoundOccs
  | .connect code cid => occs.connect code cid
  | .push code cid => occs.push code cid
  | .swapRemove code pos => occs.swapRemove code pos
  | .rewrite code lits => occs.rewrite code lits
  | .clear code => occs.clear code

/-- The operation on one vector for each literal; none at a position that does not exist. -/
def onVectors (lists : Nat → List Nat) : Op → Option (Nat → List Nat)
  | .connect code cid | .push code cid => some (update lists code (lists code ++ [cid]))
  | .swapRemove code pos =>
      if pos < (lists code).length then
        (lists code).getLast?.map fun last =>
          update lists code ((lists code).set pos last).dropLast
      else none
  | .rewrite code lits => some (update lists code lits)
  | .clear code => some (update lists code [])

/-- Entries are connected before others overflow, as long as the span has room. -/
def Permitted (occs : RoundOccs) : Op → Prop
  | .connect code _ =>
      occs.spanStart code + occs.primLen code < occs.spanEnd code ∧ occs.extra code = []
  | _ => True

/-- The pooled lists and the vectors after the same operations. -/
inductive Run (counts : Nat → Nat) (permitted : RoundOccs → Op → Prop) :
    RoundOccs → (Nat → List Nat) → Prop where
  | start : Run counts permitted (layout counts) fun _ => []
  | step {occs : RoundOccs} {lists lists' : Nat → List Nat} (before : Run counts permitted occs lists)
      (op : Op) (allowed : permitted occs op) (done : onVectors lists op = some lists') :
      Run counts permitted (occs.apply op) lists'

/-- Spans follow one another, and each holds the head of its list. -/
structure Holds (occs : RoundOccs) (lists : Nat → List Nat) : Prop where
  mono : Monotone occs.spanEnd
  fits : ∀ code, occs.spanStart code + occs.primLen code ≤ occs.spanEnd code
  same : ∀ code, occs.combined code = lists code

variable {occs : RoundOccs} {lists : Nat → List Nat} {code : Nat}

theorem layoutEnd_mono (counts : Nat → Nat) : Monotone (layoutEnd counts) := by
  have bound : ∀ code, layoutEnd counts code ≤ u32Max := by
    intro code
    cases code <;> exact Nat.min_le_right _ _
  refine monotone_nat_of_le_succ fun code => ?_
  exact Nat.le_min.mpr ⟨Nat.le_add_right _ _, bound code⟩

theorem spanEnd_le_spanStart (mono : Monotone occs.spanEnd) {other : Nat} (less : code < other) :
    occs.spanEnd code ≤ occs.spanStart other := by
  cases other with
  | zero => exact absurd less (Nat.not_lt_zero _)
  | succ other => exact mono (Nat.le_of_lt_succ less)

/-- A step that writes to the span and the overflow of one literal only. -/
theorem Holds.step (holds : occs.Holds lists) {primary primLen : Nat → Nat} {extra : Nat → List Nat}
    (frame : ∀ p, p < occs.spanStart code ∨ occs.spanEnd code ≤ p → primary p = occs.primary p)
    (lens : ∀ other, other ≠ code → primLen other = occs.primLen other)
    (extras : ∀ other, other ≠ code → extra other = occs.extra other)
    (fits : occs.spanStart code + primLen code ≤ occs.spanEnd code) {list : List Nat}
    (here : (range' (occs.spanStart code) (primLen code)).map primary ++ extra code = list) :
    Holds ⟨primary, occs.spanEnd, primLen, extra⟩ (update lists code list) := by
  have starts : spanStart ⟨primary, occs.spanEnd, primLen, extra⟩ = occs.spanStart := by
    funext other
    cases other <;> rfl
  refine ⟨holds.mono, fun other => ?_, fun other => ?_⟩
  · rw [starts]
    dsimp only
    by_cases same : other = code
    · exact same ▸ fits
    · rw [lens other same]
      exact holds.fits other
  · rw [combined, starts]
    dsimp only
    by_cases same : other = code
    · rw [same, update_self, here]
    · rw [update_of_ne same, ← holds.same other, combined, lens other same, extras other same]
      congr 1
      refine map_congr_left fun p mem => frame p ?_
      obtain ⟨low, high⟩ := mem_range'_1.mp mem
      have fit := holds.fits other
      -- The spans of two literals do not meet.
      rcases Nat.lt_or_gt_of_ne same with before | after
      · have := spanEnd_le_spanStart holds.mono before
        omega
      · have := spanEnd_le_spanStart holds.mono after
        omega

theorem map_update_range' (primary : Nat → Nat) (start len pos v : Nat) :
    (range' start len).map (update primary (start + pos) v) =
      ((range' start len).map primary).set pos v := by
  refine ext_getElem (by simp) fun i _ _ => ?_
  simp only [getElem_map, getElem_range', getElem_set, update_apply]
  split_ifs <;> first | rfl | omega

theorem dropLast_set_concat {front : List Nat} {last pos : Nat} (within : pos ≤ front.length) :
    ((front ++ [last]).set pos last).dropLast = front.set pos last := by
  rw [set_append]
  split
  · exact dropLast_concat
  · have end_ : pos = front.length := by omega
    rw [end_, Nat.sub_self, set_cons_zero, dropLast_concat, set_eq_of_length_le (Nat.le_refl _)]

theorem map_written (primary : Nat → Nat) {start head : Nat} {lits : List Nat}
    (bound : head ≤ lits.length) :
    ((range' start head).map fun p =>
      if start ≤ p ∧ p < start + head then lits.getD (p - start) 0 else primary p) =
        lits.take head := by
  refine ext_getElem (by simp [bound]) fun i lies _ => ?_
  rw [length_map, length_range'] at lies
  simp [lies, show i < lits.length by omega]

theorem Holds.swapRemove (holds : occs.Holds lists) {pos last : Nat}
    (within : pos < (lists code).length) (found : (lists code).getLast? = some last) :
    (occs.swapRemove code pos).Holds (update lists code ((lists code).set pos last).dropLast) := by
  have fit := holds.fits code
  have whole := holds.same code
  unfold combined at whole
  cases overflow : (occs.extra code).getLast? with
  | some top =>
    obtain ⟨popped, spilt⟩ := getLast?_eq_some_iff.mp overflow
    rw [spilt, ← append_assoc] at whole
    rw [← whole, getLast?_concat] at found
    cases found
    rw [← whole, length_append, length_singleton] at within
    rw [← whole, dropLast_set_concat (Nat.le_of_lt_succ within), set_append, length_map,
      length_range']
    unfold RoundOccs.swapRemove
    rw [overflow, spilt, dropLast_concat]
    dsimp only
    by_cases low : pos < occs.primLen code
    · rw [if_pos low, if_pos low]
      refine holds.step (fun p out => update_of_ne (by omega) ..) (fun _ _ => rfl)
        (fun other ne => update_of_ne ne ..) fit ?_
      rw [update_self, map_update_range']
    · rw [if_neg low, if_neg low]
      refine holds.step (fun _ _ => rfl) (fun _ _ => rfl) (fun other ne => update_of_ne ne ..) fit ?_
      rw [update_self]
  | none =>
    have empty := getLast?_eq_none_iff.mp overflow
    rw [empty, append_nil] at whole
    rw [← whole, length_map, length_range'] at within
    obtain ⟨len, known⟩ := Nat.exists_eq_succ_of_ne_zero (Nat.ne_of_gt (Nat.zero_lt_of_lt within))
    rw [known, range'_1_concat, map_append, map_singleton] at whole
    rw [← whole, getLast?_concat] at found
    cases found
    rw [← whole, dropLast_set_concat (by simp; omega), ← map_update_range']
    unfold RoundOccs.swapRemove
    rw [overflow, known]
    refine holds.step (fun p out => ?_) (fun other ne => update_of_ne ne ..) (fun _ _ => rfl) ?_ ?_
    · split
      · exact update_of_ne (by omega) ..
      · rfl
    · rw [update_self]
      omega
    · rw [update_self, empty, append_nil]
      refine map_congr_left fun p mem => ?_
      split
      · rfl
      -- Nothing moves when the last entry itself goes.
      · exact (update_of_ne (by have := mem_range'_1.mp mem; omega) ..).symm

theorem Holds.apply {op : Op} (holds : occs.Holds lists) (permitted : occs.Permitted op)
    {lists' : Nat → List Nat} (done : onVectors lists op = some lists') :
    (occs.apply op).Holds lists' := by
  cases op with
  | connect code cid =>
    obtain ⟨room, empty⟩ := permitted
    cases done
    refine holds.step (fun p out => update_of_ne (by omega) ..) (fun other ne => update_of_ne ne ..)
      (fun _ _ => rfl) ?_ ?_
    · rw [update_self]
      omega
    · rw [update_self, ← holds.same code, combined, empty, append_nil, append_nil, range'_1_concat,
        map_append, map_update_range', set_eq_of_length_le (by simp), map_singleton, update_self]
  | push code cid =>
    cases done
    refine holds.step (fun _ _ => rfl) (fun _ _ => rfl) (fun other ne => update_of_ne ne ..)
      (holds.fits code) ?_
    rw [update_self, ← holds.same code, combined, append_assoc]
  | swapRemove code pos =>
    simp only [onVectors, Option.ite_none_right_eq_some, Option.map_eq_some_iff] at done
    obtain ⟨within, last, found, rfl⟩ := done
    exact holds.swapRemove within found
  | rewrite code lits =>
    cases done
    have fit := holds.fits code
    refine holds.step (fun p out => if_neg (by omega)) (fun other ne => update_of_ne ne ..)
      (fun other ne => update_of_ne ne ..) ?_ ?_
    · rw [update_self]
      omega
    · rw [update_self, update_self, map_written _ (Nat.min_le_left _ _)]
      exact take_append_drop _ _
  | clear code =>
    cases done
    refine holds.step (fun _ _ => rfl) (fun other ne => update_of_ne ne ..)
      (fun other ne => update_of_ne ne ..) ?_ ?_
    · rw [update_self]
      exact Nat.le_trans (Nat.le_add_right _ _) (holds.fits code)
    · simp

/-- The pooled lists are those that one vector for each literal would hold. -/
theorem run_combined {counts : Nat → Nat} (run : Run counts Permitted occs lists) (code : Nat) :
    occs.combined code = lists code := by
  have holds : occs.Holds lists := by
    induction run with
    | start =>
      have mono : Monotone (layout counts).spanEnd := layoutEnd_mono counts
      refine ⟨mono, fun code => ?_, fun _ => rfl⟩
      cases code
      · exact Nat.zero_le _
      · exact mono (Nat.le_succ _)
    | step _ op allowed done ih => exact ih.apply allowed done
  exact holds.same code

theorem pushed_run_combined :
    let occs := (((layout fun _ => 2).connect 0 7).push 0 8).swapRemove 0 0
    occs.combined 0 = [8] ∧ occs.combined 1 = [] := by
  have run := (((@Run.start (fun _ => 2) Permitted).step (.connect 0 7) ⟨by decide, rfl⟩
    rfl).step (.push 0 8) trivial rfl).step (.swapRemove 0 0) trivial rfl
  exact ⟨run_combined run 0, run_combined run 1⟩

/-- An entry connected after another has overflowed precedes it. -/
theorem connect_after_push_reorders :
    ¬ ∀ (counts : Nat → Nat) (occs : RoundOccs) (lists : Nat → List Nat),
      Run counts (fun _ _ => True) occs lists → ∀ code, occs.combined code = lists code := by
  intro claim
  have run := ((@Run.start (fun _ => 1) fun _ _ => True).step (.push 0 7) trivial
    rfl).step (.connect 0 8) trivial rfl
  exact absurd (claim _ _ _ run 0) (by decide)

end RoundOccs

end Nixie.Sat
