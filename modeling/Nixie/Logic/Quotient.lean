import Mathlib.Computability.MyhillNerode
import Mathlib.Order.CompletePartialOrder

/-! What is left of the words of a language after a first letter. -/

namespace Nixie

open Computability List

variable {α : Type*} {c : α} {L M : Language α}

/-- The words that a letter completes to those of a language. -/
abbrev after (c : α) (L : Language α) : Language α := L.leftQuotient [c]

theorem mem_after {w : List α} : w ∈ after c L ↔ c :: w ∈ L := Iff.rfl

theorem after_zero : after c 0 = (0 : Language α) := rfl

theorem after_one : after c 1 = (0 : Language α) := by
  ext w
  exact iff_of_false (cons_ne_nil c w) id

theorem after_add : after c (L + M) = after c L + after c M := rfl

/-- The words of one letter, of those that are accepted. -/
def letters (accepts : α → Prop) : Language α := {w | ∃ d, accepts d ∧ w = [d]}

theorem letters_eq (d : α) : letters (d = ·) = ({[d]} : Language α) := by
  ext w
  constructor
  · rintro ⟨_, rfl, rfl⟩
    exact rfl
  · exact fun eq => ⟨d, rfl, eq⟩

theorem nil_notMem_letters (accepts : α → Prop) : [] ∉ letters accepts := by
  rintro ⟨d, -, eq⟩
  cases eq

theorem after_letters_of_accepts {accepts : α → Prop} (accepted : accepts c) :
    after c (letters accepts) = 1 := by
  ext w
  constructor
  · rintro ⟨d, -, eq⟩
    exact (cons.inj eq).2
  · intro empty
    exact ⟨c, accepted, congrArg (c :: ·) empty⟩

theorem after_letters_of_not_accepts {accepts : α → Prop} (rejected : ¬accepts c) :
    after c (letters accepts) = 0 := by
  ext w
  refine iff_of_false ?_ (Language.notMem_zero w)
  rintro ⟨d, accepted, eq⟩
  exact rejected ((cons.inj eq).1 ▸ accepted)

open Classical
theorem after_mul : after c (L * M) = after c L * M + if [] ∈ L then after c M else 0 := by
  ext w
  rw [mem_after, Language.mem_mul, Language.mem_add, Language.mem_mul]
  constructor
  · rintro ⟨u, left, v, right, eq⟩
    cases u with
    | nil =>
      obtain rfl : v = c :: w := eq
      rw [if_pos left]
      exact .inr right
    | cons d u =>
      obtain ⟨rfl, rfl⟩ := cons.inj eq
      exact .inl ⟨u, left, v, right, rfl⟩
  · rintro (⟨u, left, v, right, rfl⟩ | right)
    · exact ⟨c :: u, left, v, right, rfl⟩
    · split at right
      · rename_i empty
        exact ⟨[], empty, c :: w, right, rfl⟩
      · exact absurd right (Language.notMem_zero w)

theorem after_kstar : after c L∗ = after c L * L∗ := by
  ext w
  rw [mem_after, Language.mem_kstar_iff_exists_nonempty, Language.mem_mul]
  constructor
  · rintro ⟨words, eq, lies⟩
    cases words with
    | nil => cases eq
    | cons u words =>
      obtain ⟨mem, some_⟩ := lies u mem_cons_self
      cases u with
      | nil => exact absurd rfl some_
      | cons d u =>
        obtain ⟨rfl, rfl⟩ := cons.inj eq
        exact ⟨u, mem, words.flatten, Language.join_mem_kstar fun v rest =>
          (lies v (mem_cons_of_mem _ rest)).1, rfl⟩
  · rintro ⟨u, left, v, right, rfl⟩
    obtain ⟨words, rfl, lies⟩ := Language.mem_kstar_iff_exists_nonempty.mp right
    exact ⟨(c :: u) :: words, rfl, forall_mem_cons.mpr ⟨⟨left, cons_ne_nil c u⟩, lies⟩⟩

theorem pow_le_pow_succ (empty : [] ∈ L) (n : Nat) : L ^ n ≤ L ^ (n + 1) := by
  intro w mem
  rw [pow_succ']
  exact Language.mem_mul.mpr ⟨[], empty, w, mem, rfl⟩

theorem after_pow_succ (n : Nat) : after c (L ^ (n + 1)) = after c L * L ^ n := by
  induction n with
  | zero => rw [pow_one, pow_zero, mul_one]
  | succ n ih =>
    rw [pow_succ', after_mul]
    split
    · rename_i empty
      rw [ih, Language.add_def]
      -- Words that skip the first one are found with it, too.
      refine Set.union_eq_self_of_subset_right ?_
      rintro w ⟨u, left, v, right, rfl⟩
      exact ⟨u, left, v, pow_le_pow_succ empty n right, rfl⟩
    · exact add_zero _

/-- The words of a number of repetitions between two bounds. -/
def repeated (L : Language α) (min : Nat) (max : Option Nat) : Language α :=
  {w | ∃ k, min ≤ k ∧ (∀ n, max = some n → k ≤ n) ∧ w ∈ L ^ k}

theorem after_repeated {min : Nat} {max : Option Nat} (pos : max ≠ some 0) :
    after c (repeated L min max) = after c L * repeated L (min - 1) (max.map (· - 1)) := by
  ext w
  rw [mem_after, Language.mem_mul]
  constructor
  · rintro ⟨k, least, most, mem⟩
    cases k with
    | zero =>
      rw [pow_zero] at mem
      exact absurd mem (cons_ne_nil c w)
    | succ k =>
      have rest : w ∈ after c (L ^ (k + 1)) := mem
      rw [after_pow_succ] at rest
      obtain ⟨u, left, v, right, rfl⟩ := Language.mem_mul.mp rest
      refine ⟨u, left, v, ⟨k, Nat.sub_le_of_le_add least, fun n eq => ?_, right⟩, rfl⟩
      obtain ⟨n', bound, rfl⟩ := Option.map_eq_some_iff.mp eq
      exact Nat.le_sub_one_of_lt (most n' bound)
  · rintro ⟨u, left, v, ⟨k, least, most, right⟩, rfl⟩
    refine ⟨k + 1, Nat.le_add_of_sub_le least, fun n eq => ?_, ?_⟩
    · have bound := most (n - 1) (by rw [eq]; rfl)
      have nonzero : n ≠ 0 := fun zero => pos (zero ▸ eq)
      omega
    · have whole : u ++ v ∈ after c (L ^ (k + 1)) := by
        rw [after_pow_succ]
        exact ⟨u, left, v, right, rfl⟩
      exact whole

theorem nil_mem_mul : [] ∈ L * M ↔ [] ∈ L ∧ [] ∈ M := by
  rw [Language.mem_mul]
  constructor
  · rintro ⟨u, left, v, right, eq⟩
    obtain ⟨rfl, rfl⟩ := append_eq_nil_iff.mp eq
    exact ⟨left, right⟩
  · exact fun ⟨left, right⟩ => ⟨[], left, [], right, rfl⟩

theorem nil_mem_prod {languages : List (Language α)} :
    [] ∈ languages.prod ↔ ∀ L ∈ languages, [] ∈ L := by
  induction languages with
  | nil => simp
  | cons L languages ih => rw [prod_cons, nil_mem_mul, ih, forall_mem_cons]

theorem nil_mem_pow {n : Nat} : [] ∈ L ^ n ↔ n = 0 ∨ [] ∈ L := by
  induction n with
  | zero => exact iff_of_true Language.nil_mem_one (.inl rfl)
  | succ n ih =>
    rw [pow_succ', nil_mem_mul, ih]
    constructor
    · exact fun both => .inr both.1
    · rintro (zero | empty)
      · cases zero
      · exact ⟨empty, .inr empty⟩

theorem singleton_mul_singleton (c : α) (w : List α) :
    ({[c]} : Language α) * ({w} : Language α) = ({c :: w} : Language α) :=
  Set.image2_singleton

theorem repeated_zero : repeated L 0 (some 0) = 1 := by
  ext w
  constructor
  · rintro ⟨k, -, most, mem⟩
    obtain rfl := Nat.le_zero.mp (most 0 rfl)
    exact mem
  · exact fun mem => ⟨0, Nat.le_refl 0, fun n _ => Nat.zero_le n, mem⟩

theorem repeated_of_lt {min n : Nat} (less : n < min) : repeated L min (some n) = 0 := by
  ext w
  refine iff_of_false ?_ (Language.notMem_zero w)
  rintro ⟨k, least, most, -⟩
  exact absurd (least.trans (most n rfl)) (Nat.not_le.mpr less)

theorem repeated_empty {min : Nat} (pos : 0 < min) (max : Option Nat) :
    repeated (0 : Language α) min max = 0 := by
  ext w
  refine iff_of_false ?_ (Language.notMem_zero w)
  rintro ⟨k, least, -, mem⟩
  rw [zero_pow (pos.trans_le least).ne'] at mem
  exact Language.notMem_zero w mem

theorem repeated_one {min : Nat} {max : Option Nat} (bounds : ∀ n, max = some n → min ≤ n) :
    repeated (1 : Language α) min max = 1 := by
  ext w
  constructor
  · rintro ⟨k, -, -, mem⟩
    rwa [one_pow] at mem
  · intro mem
    refine ⟨min, Nat.le_refl min, bounds, ?_⟩
    rwa [one_pow]

theorem nil_mem_repeated {min : Nat} {max : Option Nat} (bounds : ∀ n, max = some n → min ≤ n) :
    [] ∈ repeated L min max ↔ min = 0 ∨ [] ∈ L := by
  constructor
  · rintro ⟨k, least, -, mem⟩
    rcases nil_mem_pow.mp mem with rfl | empty
    · exact .inl (Nat.le_zero.mp least)
    · exact .inr empty
  · exact fun either => ⟨min, Nat.le_refl min, bounds, nil_mem_pow.mpr either⟩

theorem mem_foldr_sup {languages : List (Language α)} {w : List α} :
    w ∈ languages.foldr (· ⊔ ·) ⊥ ↔ ∃ L ∈ languages, w ∈ L := by
  induction languages with
  | nil => exact iff_of_false (Language.notMem_zero w) fun ⟨_, mem, _⟩ => nomatch mem
  | cons L languages ih =>
    rw [foldr_cons]
    constructor
    · rintro (here | there)
      · exact ⟨L, mem_cons_self, here⟩
      · obtain ⟨M, mem, there⟩ := ih.mp there
        exact ⟨M, mem_cons_of_mem L mem, there⟩
    · rintro ⟨M, mem, found⟩
      rcases mem_cons.mp mem with rfl | mem
      · exact .inl found
      · exact .inr (ih.mpr ⟨M, mem, found⟩)

theorem mem_foldr_inf {languages : List (Language α)} {w : List α} :
    w ∈ languages.foldr (· ⊓ ·) ⊤ ↔ ∀ L ∈ languages, w ∈ L := by
  induction languages with
  | nil => exact iff_of_true trivial fun L mem => nomatch mem
  | cons L languages ih =>
    rw [foldr_cons, forall_mem_cons]
    exact and_congr_right fun _ => ih

end Nixie
