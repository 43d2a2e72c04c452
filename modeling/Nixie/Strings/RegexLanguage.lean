import Nixie.Logic.Quotient
import Nixie.Strings.Regex

/-! The languages of expressions, and that constructors build the right ones. -/

namespace Nixie.Strings

open Computability List Option

mutual

def RegexOp.language : RegexOp → Language Char
  | .epsilon => 1
  | .none => 0
  | .all => ⊤
  | .allChar => letters fun _ => True
  | .char c => letters (c = ·)
  | .range lo hi => letters fun c => lo ≤ c ∧ c ≤ hi
  | .concat parts => (languages parts).foldr (· * ·) 1
  | .union parts => (languages parts).foldr (· ⊔ ·) ⊥
  | .inter parts => (languages parts).foldr (· ⊓ ·) ⊤
  | .complement r => r.languageᶜ
  | .star r => r.language∗
  | .plus r => r.language * r.language∗
  | .option r => 1 + r.language
  | .loop r min max => repeated r.language min max

def Regex.language : Regex → Language Char
  | .make op _ => op.language

def languages : List Regex → List (Language Char)
  | [] => []
  | r :: rs => r.language :: languages rs

end

mutual

/-- Operands are valid, and bounds of loops leave a repetition. -/
def RegexOp.Valid : RegexOp → Prop
  | .concat parts => AllValid parts
  | .union parts => AllValid parts
  | .inter parts => AllValid parts
  | .complement r => r.Valid
  | .star r => r.Valid
  | .plus r => r.Valid
  | .option r => r.Valid
  | .loop r min max => r.Valid ∧ ∀ n, max = some n → min ≤ n ∧ 0 < n
  | _ => True

/-- What is kept about the empty word is right. -/
def Regex.Valid : Regex → Prop
  | .make op nullable => op.Valid ∧ (nullable = true ↔ [] ∈ op.language)

def AllValid : List Regex → Prop
  | [] => True
  | r :: rs => r.Valid ∧ AllValid rs

end

theorem languages_eq_map (rs : List Regex) : languages rs = rs.map Regex.language := by
  induction rs with
  | nil => rfl
  | cons r rs ih => rw [languages, ih, map_cons]

theorem allValid_iff {rs : List Regex} : AllValid rs ↔ ∀ r ∈ rs, r.Valid := by
  induction rs with
  | nil => exact iff_of_true trivial fun _ mem => nomatch mem
  | cons r rs ih => rw [AllValid, ih, forall_mem_cons]

namespace Regex

variable {r : Regex} {w : List Char}

theorem language_op (r : Regex) : r.op.language = r.language := by
  cases r
  rfl

theorem Valid.op (valid : r.Valid) : r.op.Valid := by
  cases r
  exact valid.1

theorem Valid.nullable_iff (valid : r.Valid) : r.nullable = true ↔ [] ∈ r.language := by
  cases r
  exact valid.2

theorem language_of_op {op : RegexOp} (eq : r.op = op) : r.language = op.language :=
  r.language_op.symm.trans (congrArg _ eq)

theorem Valid.of_op {op : RegexOp} (valid : r.Valid) (eq : r.op = op) : op.Valid := eq ▸ valid.op

theorem valid_epsilon : epsilon.Valid := ⟨trivial, iff_of_true rfl Language.nil_mem_one⟩

theorem valid_none : none.Valid := ⟨trivial, iff_of_false Bool.false_ne_true (Language.notMem_zero _)⟩

theorem valid_all : all.Valid := ⟨trivial, iff_of_true rfl trivial⟩

theorem valid_allChar : allChar.Valid :=
  ⟨trivial, iff_of_false Bool.false_ne_true (nil_notMem_letters _)⟩

theorem valid_char (c : Char) : (char c).Valid :=
  ⟨trivial, iff_of_false Bool.false_ne_true (nil_notMem_letters _)⟩

theorem valid_range (lo hi : Char) : (range lo hi).Valid := by
  rw [range]
  split
  · exact valid_none
  · exact ⟨trivial, iff_of_false Bool.false_ne_true (nil_notMem_letters _)⟩

theorem language_range (lo hi : Char) :
    (range lo hi).language = letters fun c => lo ≤ c ∧ c ≤ hi := by
  rw [range]
  split
  · rename_i less
    ext w
    refine iff_of_false (Language.notMem_zero w) ?_
    rintro ⟨c, ⟨le, le'⟩, -⟩
    exact absurd less (Char.not_lt.mpr (Char.le_trans le le'))
  · rfl

theorem isEmpty_iff : r.isEmpty = true ↔ r.op = .none := by
  rw [isEmpty]
  split
  · rename_i eq
    exact iff_of_true rfl eq
  · rename_i other
    exact iff_of_false Bool.false_ne_true other

/-- An operation of languages, and how the roles of operands fit it. -/
structure Combines (role : RegexOp → Role) (op : Language Char → Language Char → Language Char)
    (unit absorbing : Language Char) : Prop where
  assoc : ∀ L M N, op (op L M) N = op L (op M N)
  unit_op : ∀ L, op unit L = L
  absorb_op : ∀ L, op absorbing L = absorbing
  op_absorb : ∀ L, op L absorbing = absorbing
  skip : ∀ {o}, role o = .skip → o.language = unit
  absorb : ∀ {o}, role o = .absorb → o.language = absorbing
  splice : ∀ {o inner}, role o = .splice inner →
    o.language = (inner.map language).foldr op unit ∧ (o.Valid → ∀ r ∈ inner, r.Valid)

section

variable {role : RegexOp → Role} {op : Language Char → Language Char → Language Char}
  {unit absorbing : Language Char} (combines : Combines role op unit absorbing)
include combines

theorem Combines.foldr_append (Ls Ms : List (Language Char)) :
    (Ls ++ Ms).foldr op unit = op (Ls.foldr op unit) (Ms.foldr op unit) := by
  induction Ls with
  | nil => exact (combines.unit_op _).symm
  | cons L Ls ih => rw [cons_append, foldr_cons, foldr_cons, ih, combines.assoc]

theorem Combines.flatten_spec {parts : List Regex} (valid : ∀ p ∈ parts, p.Valid) :
    (flatten role parts = Option.none → (parts.map language).foldr op unit = absorbing) ∧
      ∀ flat, flatten role parts = some flat →
        (flat.map language).foldr op unit = (parts.map language).foldr op unit ∧
          ∀ r ∈ flat, r.Valid := by
  induction parts with
  | nil =>
    refine ⟨fun eq => (nomatch eq), fun flat eq => ?_⟩
    obtain rfl := some.inj eq
    exact ⟨rfl, valid⟩
  | cons p parts ih =>
    obtain ⟨validHead, valid⟩ := forall_mem_cons.mp valid
    obtain ⟨absorbed, flattened⟩ := ih valid
    have head : p.op.language = p.language := p.language_op
    rw [map_cons, foldr_cons, flatten]
    cases eq : role p.op with
    | skip =>
      rw [← head, combines.skip eq, combines.unit_op]
      exact ⟨absorbed, flattened⟩
    | absorb =>
      rw [← head, combines.absorb eq, combines.absorb_op]
      exact ⟨fun _ => rfl, fun flat found => (nomatch found)⟩
    | splice inner =>
      obtain ⟨same, validInner⟩ := combines.splice eq
      constructor
      · intro none_
        rw [absorbed (map_eq_none_iff.mp none_), combines.op_absorb]
      · intro flat found
        obtain ⟨rest, foundRest, rfl⟩ := map_eq_some_iff.mp found
        obtain ⟨sameRest, validRest⟩ := flattened rest foundRest
        rw [map_append, combines.foldr_append, sameRest, ← same, head]
        exact ⟨rfl, fun r mem =>
          (mem_append.mp mem).elim (validInner validHead.op r) (validRest r)⟩
    | keep =>
      constructor
      · intro none_
        rw [absorbed (map_eq_none_iff.mp none_), combines.op_absorb]
      · intro flat found
        obtain ⟨rest, foundRest, rfl⟩ := map_eq_some_iff.mp found
        obtain ⟨sameRest, validRest⟩ := flattened rest foundRest
        rw [map_cons, foldr_cons, sameRest]
        exact ⟨rfl, forall_mem_cons.mpr ⟨validHead, validRest⟩⟩

end

theorem combines_concat : Combines concatRole (· * ·) 1 0 where
  assoc := mul_assoc
  unit_op := one_mul
  absorb_op := zero_mul
  op_absorb := mul_zero
  skip {o} eq := by
    cases o with
    | epsilon => rfl
    | _ => cases eq
  absorb {o} eq := by
    cases o with
    | none => rfl
    | _ => cases eq
  splice {o inner} eq := by
    cases o with
    | concat parts =>
      obtain rfl := Role.splice.inj eq
      rw [RegexOp.language, languages_eq_map]
      exact ⟨rfl, allValid_iff.mp⟩
    | _ => cases eq

theorem combines_union : Combines unionRole (· ⊔ ·) ⊥ ⊤ where
  assoc := sup_assoc
  unit_op := bot_sup_eq
  absorb_op := top_sup_eq
  op_absorb := sup_top_eq
  skip {o} eq := by
    cases o with
    | none => rfl
    | _ => cases eq
  absorb {o} eq := by
    cases o with
    | all => rfl
    | _ => cases eq
  splice {o inner} eq := by
    cases o with
    | union parts =>
      obtain rfl := Role.splice.inj eq
      rw [RegexOp.language, languages_eq_map]
      exact ⟨rfl, allValid_iff.mp⟩
    | _ => cases eq

theorem combines_inter : Combines interRole (· ⊓ ·) ⊤ ⊥ where
  assoc := inf_assoc
  unit_op := top_inf_eq
  absorb_op := bot_inf_eq
  op_absorb := inf_bot_eq
  skip {o} eq := by
    cases o with
    | all => rfl
    | _ => cases eq
  absorb {o} eq := by
    cases o with
    | none => rfl
    | _ => cases eq
  splice {o inner} eq := by
    cases o with
    | inter parts =>
      obtain rfl := Role.splice.inj eq
      rw [RegexOp.language, languages_eq_map]
      exact ⟨rfl, allValid_iff.mp⟩
    | _ => cases eq

end Regex

theorem languages_eq_of_pairs {xs ys : List Regex} (length : xs.length = ys.length)
    (same : ∀ p ∈ pairs xs ys, p.1.language = p.2.language) : languages xs = languages ys := by
  induction xs generalizing ys with
  | nil =>
    cases ys with
    | nil => rfl
    | cons y ys => cases length
  | cons x xs ih =>
    cases ys with
    | nil => cases length
    | cons y ys =>
      obtain ⟨head, tail⟩ := forall_mem_cons.mp same
      have headEq : x.language = y.language := by
        rw [← x.language_op, ← y.language_op]
        exact head
      rw [languages, languages, headEq, ih (Nat.succ.inj length) tail]

theorem language_eq_of_equalParts {a b : RegexOp} (rank : opRank a = opRank b)
    {more : List (RegexOp × RegexOp)} (eq : equalParts a b = some more)
    (same : ∀ p ∈ more, p.1.language = p.2.language) : a.language = b.language := by
  have single {x y : Regex} (same : ∀ p ∈ [(x.op, y.op)], p.1.language = p.2.language) :
      x.language = y.language := by
    have eq := same _ (mem_singleton_self _)
    rwa [x.language_op, y.language_op] at eq
  unfold equalParts at eq
  split at eq
  case h_1 | h_2 | h_3 | h_4 =>
    -- Only the same constant has this rank.
    cases b <;> first | rfl | cases rank
  case h_5 =>
    split at eq
    · cases eq
    · rename_i equal
      rw [not_not.mp equal]
  case h_6 =>
    split at eq
    · cases eq
    · rename_i equal
      obtain ⟨rfl, rfl⟩ := Prod.mk.inj (not_not.mp equal)
      rfl
  case h_7 | h_8 | h_9 =>
    split at eq
    · cases eq
    · rename_i equal
      obtain rfl := some.inj eq
      rw [RegexOp.language, RegexOp.language, languages_eq_of_pairs (not_not.mp equal) same]
  case h_10 | h_11 | h_12 | h_13 =>
    obtain rfl := some.inj eq
    rw [RegexOp.language, RegexOp.language, single same]
  case h_14 =>
    split at eq
    · cases eq
    · rename_i equal
      obtain rfl := some.inj eq
      obtain ⟨rfl, rfl⟩ := Prod.mk.inj (not_not.mp equal)
      rw [RegexOp.language, RegexOp.language, single same]
  case h_15 => cases eq

theorem language_eq_of_eqLoop {stack : List (RegexOp × RegexOp)} (eq : eqLoop stack = true) :
    ∀ p ∈ stack, p.1.language = p.2.language := by
  fun_induction eqLoop stack with
  | case1 => exact fun p mem => nomatch mem
  | case2 => cases eq
  | case3 => cases eq
  | case4 a b stack rank more found ih =>
    obtain ⟨parts, rest⟩ := forall_mem_append.mp (ih eq)
    refine forall_mem_cons.mpr ⟨?_, rest⟩
    exact language_eq_of_equalParts (not_not.mp rank) found fun p mem =>
      parts p (mem_reverse.mpr mem)

theorem Regex.language_eq_of_eq {r other : Regex} (eq : r.eq other = true) :
    r.language = other.language := by
  have same := language_eq_of_eqLoop eq _ (mem_singleton_self _)
  rwa [r.language_op, other.language_op] at same

theorem mem_dedupFrom (last : Regex) (rs : List Regex) : (∀ r ∈ dedupFrom last rs, r ∈ rs) ∧
      ∀ r ∈ rs, ∃ r' ∈ last :: dedupFrom last rs, r'.language = r.language := by
  induction rs generalizing last with
  | nil => exact ⟨fun r mem => (nomatch mem), fun r mem => (nomatch mem)⟩
  | cons r rs ih =>
    rw [dedupFrom]
    split
    · rename_i equal
      obtain ⟨lies, found⟩ := ih last
      refine ⟨fun r' mem => mem_cons_of_mem r (lies r' mem), forall_mem_cons.mpr ⟨?_, found⟩⟩
      exact ⟨last, mem_cons_self, (Regex.language_eq_of_eq equal).symm⟩
    · obtain ⟨lies, found⟩ := ih r
      refine ⟨fun r' mem => ?_, fun r' mem => ?_⟩
      · rcases mem_cons.mp mem with rfl | mem
        · exact mem_cons_self
        · exact mem_cons_of_mem r (lies r' mem)
      · rcases mem_cons.mp mem with rfl | mem
        · exact ⟨r', mem_cons_of_mem _ mem_cons_self, rfl⟩
        · obtain ⟨kept, memberKept, same⟩ := found r' mem
          exact ⟨kept, mem_cons_of_mem _ memberKept, same⟩

theorem mem_canonical (flat : List Regex) : (∀ r ∈ canonical flat, r ∈ flat) ∧
      ∀ r ∈ flat, ∃ r' ∈ canonical flat, r'.language = r.language := by
  have perm := mergeSort_perm flat fun a b => regexCmp a b != .gt
  have deduped (rs : List Regex) : (∀ r ∈ dedup rs, r ∈ rs) ∧
      ∀ r ∈ rs, ∃ r' ∈ dedup rs, r'.language = r.language := by
    cases rs with
    | nil => exact ⟨fun r mem => (nomatch mem), fun r mem => (nomatch mem)⟩
    | cons r rs =>
      obtain ⟨lies, found⟩ := mem_dedupFrom r rs
      refine ⟨fun r' mem => ?_, forall_mem_cons.mpr ⟨⟨r, mem_cons_self, rfl⟩, found⟩⟩
      exact (mem_cons.mp mem).elim (fun eq => eq ▸ mem_cons_self)
        fun mem => mem_cons_of_mem r (lies r' mem)
  obtain ⟨lies, found⟩ := deduped (flat.mergeSort fun a b => regexCmp a b != .gt)
  exact ⟨fun r mem => perm.mem_iff.mp (lies r mem),
    fun r mem => found r (perm.mem_iff.mpr mem)⟩

end Nixie.Strings

/-! Constructors build valid expressions of the right languages. -/

namespace Nixie.Strings.Regex

open Computability List

variable {r : Regex} {parts : List Regex}

/-- A valid expression of a language. -/
def Denotes (r : Regex) (L : Language Char) : Prop := r.Valid ∧ r.language = L

theorem denotes_epsilon : epsilon.Denotes 1 := ⟨valid_epsilon, rfl⟩

theorem denotes_none : none.Denotes 0 := ⟨valid_none, rfl⟩

theorem denotes_all : all.Denotes ⊤ := ⟨valid_all, rfl⟩

theorem denotes_char (c : Char) : (char c).Denotes {[c]} := ⟨valid_char c, letters_eq c⟩

theorem denotes_range (lo hi : Char) : (range lo hi).Denotes (letters fun c => lo ≤ c ∧ c ≤ hi) :=
  ⟨valid_range lo hi, language_range lo hi⟩

theorem Combines.denotes {role : RegexOp → Role}
    {op : Language Char → Language Char → Language Char} {unit absorbing : Language Char}
    (combines : Combines role op unit absorbing) (op_unit : ∀ L, op L unit = L)
    (valid : ∀ p ∈ parts, p.Valid) {absorbed empty : Regex} {several : List Regex → Regex}
    (isAbsorbing : absorbed.Denotes absorbing) (isUnit : empty.Denotes unit)
    (several_denotes : ∀ flat, (∀ r ∈ flat, r.Valid) →
      (several flat).Denotes ((flat.map language).foldr op unit)) :
    Denotes (match flatten role parts with
      | Option.none => absorbed
      | some [r] => r
      | some [] => empty
      | some flat => several flat) ((parts.map language).foldr op unit) := by
  obtain ⟨absorbs, flattens⟩ := combines.flatten_spec valid
  split
  · rename_i eq
    rw [absorbs eq]
    exact isAbsorbing
  · rename_i r eq
    obtain ⟨same, validFlat⟩ := flattens _ eq
    refine ⟨validFlat r (mem_singleton_self r), ?_⟩
    rw [← same, map_cons, map_nil, foldr_cons, foldr_nil, op_unit]
  · rename_i eq
    rw [← (flattens _ eq).1]
    exact isUnit
  · rename_i flat _ _ eq
    obtain ⟨same, validFlat⟩ := flattens _ eq
    rw [← same]
    exact several_denotes flat validFlat

theorem denotes_concat (valid : ∀ p ∈ parts, p.Valid) :
    (concat parts).Denotes (parts.map language).prod := by
  refine combines_concat.denotes mul_one valid denotes_none denotes_epsilon fun flat valid => ?_
  have same : (RegexOp.concat flat).language = (flat.map language).prod := by
    rw [RegexOp.language, languages_eq_map]
    rfl
  refine ⟨⟨allValid_iff.mpr valid, ?_⟩, same⟩
  -- The empty word is in all operands, which each of them knows.
  rw [same, nil_mem_prod, all_eq_true, forall_mem_map]
  exact forall₂_congr fun r mem => (valid r mem).nullable_iff

theorem exists_mem_map_language {w : List Char} :
    (∃ L ∈ parts.map language, w ∈ L) ↔ ∃ r ∈ parts, w ∈ r.language := by
  constructor
  · rintro ⟨L, found, word⟩
    obtain ⟨r, mem, rfl⟩ := mem_map.mp found
    exact ⟨r, mem, word⟩
  · exact fun ⟨r, mem, word⟩ => ⟨_, mem_map_of_mem mem, word⟩

theorem denotes_union (valid : ∀ p ∈ parts, p.Valid) :
    (union parts).Denotes ((parts.map language).foldr (· ⊔ ·) ⊥) := by
  refine combines_union.denotes sup_bot_eq valid denotes_all denotes_none fun flat valid => ?_
  obtain ⟨lies, found⟩ := mem_canonical flat
  have validCanonical : ∀ r ∈ canonical flat, r.Valid := fun r member => valid r (lies r member)
  have mem {w : List Char} : w ∈ (RegexOp.union (canonical flat)).language ↔
      ∃ r ∈ canonical flat, w ∈ r.language := by
    rw [RegexOp.language, languages_eq_map, mem_foldr_sup, exists_mem_map_language]
  refine ⟨⟨allValid_iff.mpr validCanonical, ?_⟩, ?_⟩
  · rw [mem, any_eq_true]
    exact exists_congr fun r => and_congr_right fun member =>
      (validCanonical r member).nullable_iff
  · ext w
    rw [language, mem, mem_foldr_sup, exists_mem_map_language]
    constructor
    · exact fun ⟨r, member, word⟩ => ⟨r, lies r member, word⟩
    · intro ⟨r, member, word⟩
      obtain ⟨kept, memberKept, same⟩ := found r member
      exact ⟨kept, memberKept, same ▸ word⟩

theorem denotes_inter (valid : ∀ p ∈ parts, p.Valid) :
    (inter parts).Denotes ((parts.map language).foldr (· ⊓ ·) ⊤) := by
  refine combines_inter.denotes inf_top_eq valid denotes_none denotes_all fun flat valid => ?_
  obtain ⟨lies, found⟩ := mem_canonical flat
  have validCanonical : ∀ r ∈ canonical flat, r.Valid := fun r member => valid r (lies r member)
  have mem {w : List Char} : w ∈ (RegexOp.inter (canonical flat)).language ↔
      ∀ r ∈ canonical flat, w ∈ r.language := by
    rw [RegexOp.language, languages_eq_map, mem_foldr_inf, forall_mem_map]
  refine ⟨⟨allValid_iff.mpr validCanonical, ?_⟩, ?_⟩
  · rw [mem, all_eq_true]
    exact forall₂_congr fun r member => (validCanonical r member).nullable_iff
  · ext w
    rw [language, mem, mem_foldr_inf, forall_mem_map]
    constructor
    · intro words r member
      obtain ⟨kept, memberKept, same⟩ := found r member
      exact same ▸ words kept memberKept
    · exact fun words r member => words r (lies r member)

theorem denotes_complement (valid : r.Valid) : r.complement.Denotes r.languageᶜ := by
  rw [complement]
  cases eq : r.op with
  | none =>
    rw [language_of_op eq]
    exact ⟨valid_all, compl_bot.symm⟩
  | all =>
    rw [language_of_op eq]
    exact ⟨valid_none, compl_top.symm⟩
  | complement inner =>
    rw [language_of_op eq]
    exact ⟨valid.of_op eq, (compl_compl _).symm⟩
  | _ =>
    refine ⟨⟨valid, ?_⟩, rfl⟩
    rw [Bool.not_eq_true', ← Bool.not_eq_true, valid.nullable_iff]
    exact Iff.rfl

theorem denotes_star (valid : r.Valid) : r.star.Denotes r.language∗ := by
  rw [star]
  cases eq : r.op with
  | epsilon =>
    rw [language_of_op eq]
    exact ⟨valid_epsilon, kstar_one.symm⟩
  | none =>
    rw [language_of_op eq]
    exact ⟨valid_epsilon, kstar_zero.symm⟩
  | star inner =>
    refine ⟨valid, ?_⟩
    rw [language_of_op eq, RegexOp.language, kstar_idem]
  | all =>
    refine ⟨valid, ?_⟩
    rw [language_of_op eq]
    exact (le_antisymm le_top le_kstar).symm
  | _ => exact ⟨⟨valid, iff_of_true rfl (Language.nil_mem_kstar _)⟩, rfl⟩

theorem denotes_plus (valid : r.Valid) : r.plus.Denotes (r.language * r.language∗) := by
  rw [plus]
  cases eq : r.op with
  | epsilon =>
    rw [language_of_op eq]
    exact ⟨valid_epsilon, (one_mul _).symm.trans (congrArg _ kstar_one.symm)⟩
  | none =>
    rw [language_of_op eq]
    exact ⟨valid_none, (zero_mul _).symm⟩
  | star inner =>
    refine ⟨valid, ?_⟩
    rw [language_of_op eq, RegexOp.language, kstar_idem, kstar_mul_kstar]
  | plus inner =>
    refine ⟨valid, ?_⟩
    -- Repeating what is repeated at least once adds nothing but the empty word.
    have lies : (inner.language * inner.language∗)∗ ≤ inner.language∗ :=
      (kstar_mono mul_kstar_le_kstar).trans_eq (kstar_idem _)
    have absorbed : inner.language∗ * (inner.language * inner.language∗)∗ = inner.language∗ := by
      refine le_antisymm ?_ (le_mul_of_one_le_right bot_le one_le_kstar)
      exact (mul_le_mul_right lies _).trans_eq (kstar_mul_kstar _)
    rw [language_of_op eq, RegexOp.language, mul_assoc, absorbed]
  | _ =>
    refine ⟨⟨valid, ?_⟩, rfl⟩
    rw [RegexOp.language, nil_mem_mul, valid.nullable_iff]
    exact (and_iff_left (Language.nil_mem_kstar _)).symm

theorem denotes_option (valid : r.Valid) : r.option.Denotes (1 + r.language) := by
  rw [option]
  split
  · rename_i nullable
    have empty : 1 ≤ r.language := by
      intro w one
      exact (Language.mem_one w).mp one ▸ valid.nullable_iff.mp nullable
    exact ⟨valid, (Set.union_eq_self_of_subset_left empty).symm⟩
  · cases eq : r.op with
    | none =>
      rw [language_of_op eq]
      exact ⟨valid_epsilon, (add_zero _).symm⟩
    | _ => exact ⟨⟨valid, iff_of_true rfl (.inl Language.nil_mem_one)⟩, rfl⟩

theorem denotes_loopBounded (valid : r.Valid) (min : Nat) (max : Option Nat) :
    (r.loopBounded min max).Denotes (repeated r.language min max) := by
  rw [loopBounded]
  split
  · rename_i zero
    obtain ⟨rfl, rfl⟩ := zero
    exact ⟨valid_epsilon, repeated_zero.symm⟩
  rename_i nonzero
  split
  · rename_i wrong
    obtain ⟨n, rfl, less⟩ := wrong
    exact ⟨valid_none, (repeated_of_lt less).symm⟩
  rename_i right
  have bounds : ∀ n, max = some n → min ≤ n := fun n eq =>
    Nat.not_lt.mp fun less => right ⟨n, eq, less⟩
  split
  · rename_i empty
    have zero : r.language = 0 := language_of_op (isEmpty_iff.mp empty.1)
    rw [zero]
    exact ⟨valid_none, (repeated_empty empty.2 max).symm⟩
  cases eq : r.op with
  | epsilon =>
    have one : r.language = 1 := language_of_op eq
    rw [one]
    exact ⟨valid_epsilon, (repeated_one bounds).symm⟩
  | _ =>
    refine ⟨⟨⟨valid, fun n eq => ⟨bounds n eq, Nat.pos_of_ne_zero fun zero => ?_⟩⟩, ?_⟩, rfl⟩
    · -- A loop without a repetition was found before.
      subst zero
      exact nonzero ⟨Nat.le_zero.mp (bounds 0 eq), eq⟩
    · rw [RegexOp.language, nil_mem_repeated bounds, ← valid.nullable_iff, Bool.or_eq_true,
        decide_eq_true_iff]

theorem denotes_literal (s : String) : (literal s).Denotes {s.toList} := by
  have letters (cs : List Char) : ((cs.map char).map language).prod = ({cs} : Language Char) := by
    induction cs with
    | nil => rfl
    | cons c cs ih =>
      rw [map_cons, map_cons, prod_cons, ih, (denotes_char c).2]
      exact singleton_mul_singleton c cs
  rw [literal]
  split
  · rename_i empty
    rw [List.isEmpty_iff.mp empty]
    exact denotes_epsilon
  · have valid : ∀ p ∈ s.toList.map char, p.Valid := by
      rw [forall_mem_map]
      exact fun c _ => valid_char c
    exact letters s.toList ▸ denotes_concat valid

end Nixie.Strings.Regex
