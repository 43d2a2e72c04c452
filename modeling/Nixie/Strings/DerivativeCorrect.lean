import Nixie.Strings.RegexLanguage

/-! Derivatives have the words that the letter completes, and matching is membership. -/

namespace Nixie.Strings

open Computability List

variable {c : Char} {node : Regex}

/-- An expression of what a letter leaves of another one. -/
def Leaves (c : Char) (r d : Regex) : Prop := d.Denotes (after c r.language)

theorem unwrapOption_spec (valid : node.Valid) :
    (unwrapOption node).Valid ∧ after c (unwrapOption node).language = after c node.language := by
  fun_induction unwrapOption node with
  | case1 inner nullable ih =>
    obtain ⟨validInner, same⟩ := ih valid.op
    refine ⟨validInner, same.trans ?_⟩
    have option : (Regex.make (.option inner) nullable).language = 1 + inner.language := rfl
    rw [option, after_add, after_one, zero_add]
  | case2 node other => exact ⟨valid, rfl⟩

theorem denotes_after_letters (accepts : Char → Prop) [Decidable (accepts c)] :
    (if accepts c then Regex.epsilon else Regex.none).Denotes (after c (letters accepts)) := by
  split
  · rename_i accepted
    rw [after_letters_of_accepts accepted]
    exact Regex.denotes_epsilon
  · rename_i rejected
    rw [after_letters_of_not_accepts rejected]
    exact Regex.denotes_none

theorem leaves_of_openNode {r : Regex} (eq : openNode node c = .inl r) : Leaves c node r := by
  rw [Leaves, ← node.language_op]
  unfold openNode at eq
  split at eq
  case h_1 same =>
    obtain rfl := Sum.inl.inj eq
    rw [same]
    exact ⟨Regex.valid_none, after_one.symm⟩
  case h_2 same =>
    obtain rfl := Sum.inl.inj eq
    rw [same]
    exact ⟨Regex.valid_none, after_zero.symm⟩
  case h_3 same =>
    obtain rfl := Sum.inl.inj eq
    rw [same]
    exact ⟨Regex.valid_all, rfl⟩
  case h_4 same =>
    obtain rfl := Sum.inl.inj eq
    rw [same]
    exact ⟨Regex.valid_epsilon, (after_letters_of_accepts trivial).symm⟩
  case h_5 ch same =>
    obtain rfl := Sum.inl.inj eq
    rw [same]
    exact denotes_after_letters (ch = ·)
  case h_6 lo hi same =>
    obtain rfl := Sum.inl.inj eq
    rw [same]
    exact denotes_after_letters fun c => lo ≤ c ∧ c ≤ hi
  all_goals cases eq

theorem frame_of_openNode {frame : DerivFrame} (valid : node.Valid)
    (eq : openNode node c = .inr frame) : frame.done = [] ∧ ∀ r ∈ frame.pending, r.Valid := by
  have leading_valid (parts : List Regex) (valid : ∀ r ∈ parts, r.Valid) :
      ∀ r ∈ leading parts, r.Valid := by
    induction parts with
    | nil => exact valid
    | cons part parts ih =>
      obtain ⟨head, tail⟩ := forall_mem_cons.mp valid
      rw [leading]
      refine forall_mem_cons.mpr ⟨head, ?_⟩
      split
      · exact ih tail
      · exact fun r mem => absurd mem not_mem_nil
  have validOp := valid.op
  unfold openNode at eq
  split at eq
  case h_1 | h_2 | h_3 | h_4 | h_5 | h_6 => cases eq
  case h_7 parts same =>
    obtain rfl := Sum.inr.inj eq
    rw [same] at validOp
    have taken := filterMap_takenFrom [] parts
    exact ⟨rfl, taken ▸ leading_valid parts (allValid_iff.mp validOp)⟩
  case h_8 parts same | h_9 parts same =>
    obtain rfl := Sum.inr.inj eq
    rw [same] at validOp
    exact ⟨rfl, allValid_iff.mp validOp⟩
  case h_10 inner same | h_11 inner same | h_12 inner same | h_14 inner same =>
    obtain rfl := Sum.inr.inj eq
    rw [same] at validOp
    exact ⟨rfl, forall_mem_singleton.mpr validOp⟩
  case h_13 inner min max same =>
    obtain rfl := Sum.inr.inj eq
    rw [same] at validOp
    exact ⟨rfl, forall_mem_singleton.mpr validOp.1⟩

theorem denotes_union_single {d : Regex} {L : Language Char} (denotes : d.Denotes L) :
    (Regex.union [d]).Denotes L := by
  have union := Regex.denotes_union (forall_mem_singleton.mpr denotes.1)
  rwa [map_cons, map_nil, foldr_cons, foldr_nil, sup_bot_eq, denotes.2] at union

theorem denotes_concat_pair {d r : Regex} {L M : Language Char} (left : d.Denotes L)
    (right : r.Denotes M) : (Regex.concat [d, r]).Denotes (L * M) := by
  have concat := Regex.denotes_concat (forall_mem_cons.mpr
    ⟨left.1, forall_mem_singleton.mpr right.1⟩)
  rwa [map_cons, map_cons, map_nil, prod_cons, prod_singleton, left.2,
    right.2] at concat

/-- What is built from the derivatives of the operands of a concatenation. -/
def suffixes (parts : List Regex) (done : List Regex) (taken : List Nat) : List Regex :=
  (done.zip taken).filterMap fun (d, i) =>
    if d.isEmpty then none else some (.concat (d :: parts.drop (i + 1)))

theorem suffixes_cons (parts : List Regex) (d : Regex) (done : List Regex) (i : Nat)
    (taken : List Nat) : suffixes parts (d :: done) (i :: taken) =
      (if d.isEmpty then [] else [.concat (d :: parts.drop (i + 1))]) ++
        suffixes parts done taken := by
  rw [suffixes, zip_cons_cons, filterMap_cons, suffixes]
  by_cases empty : d.isEmpty = true <;> simp [empty]

theorem suffix_spec {part d : Regex} (leaves : Leaves c part d) {parts : List Regex}
    (valid : ∀ r ∈ parts, r.Valid) :
    (∀ r ∈ if d.isEmpty then [] else [Regex.concat (d :: parts)], r.Valid) ∧
      ∀ w, w ∈ after c part.language * (parts.map Regex.language).prod ↔
        ∃ r ∈ if d.isEmpty then [] else [Regex.concat (d :: parts)], w ∈ r.language := by
  split
  · rename_i empty
    have zero : after c part.language = 0 :=
      leaves.2.symm.trans (Regex.language_of_op (Regex.isEmpty_iff.mp empty))
    refine ⟨fun r mem => (nomatch mem), fun w => ?_⟩
    rw [zero, zero_mul]
    exact iff_of_false (Language.notMem_zero w) fun ⟨_, mem, _⟩ => nomatch mem
  · obtain ⟨validConcat, same⟩ := Regex.denotes_concat (forall_mem_cons.mpr ⟨leaves.1, valid⟩)
    rw [map_cons, prod_cons, leaves.2] at same
    refine ⟨forall_mem_singleton.mpr validConcat, fun w => ?_⟩
    rw [← same]
    constructor
    · exact fun word => ⟨_, mem_singleton_self _, word⟩
    · rintro ⟨r, mem, word⟩
      exact mem_singleton.mp mem ▸ word

theorem suffixes_spec (before parts : List Regex) (valid : ∀ r ∈ parts, r.Valid) {done : List Regex}
    (leaves : List.Forall₂ (Leaves c) (leading parts) done) :
    (∀ r ∈ suffixes (before ++ parts) done (takenFrom before.length parts), r.Valid) ∧
      ∀ w, w ∈ after c (parts.map Regex.language).prod ↔
        ∃ r ∈ suffixes (before ++ parts) done (takenFrom before.length parts), w ∈ r.language := by
  have nothing {rs : List Regex} (eq : rs = []) {L : Language Char} (zero : L = 0) :
      (∀ r ∈ rs, r.Valid) ∧ ∀ w, w ∈ L ↔ ∃ r ∈ rs, w ∈ r.language := by
    subst eq zero
    exact ⟨fun r mem => (nomatch mem), fun w =>
      iff_of_false (Language.notMem_zero w) fun ⟨_, mem, _⟩ => nomatch mem⟩
  induction parts generalizing before done with
  | nil =>
    cases leaves
    exact nothing rfl after_one
  | cons part parts ih =>
    obtain ⟨validHead, valid⟩ := forall_mem_cons.mp valid
    rw [leading] at leaves
    cases leaves with
    | @cons _ d _ done head tail =>
      have later : (before ++ part :: parts).drop (before.length + 1) = parts := by
        rw [drop_append, drop_of_length_le (Nat.le_succ _), Nat.add_sub_cancel_left]
        rfl
      obtain ⟨validFirst, first⟩ := suffix_spec head valid
      rw [takenFrom, suffixes_cons, later, map_cons, prod_cons]
      -- The later ones only count if this operand has the empty word.
      obtain ⟨validRest, rest⟩ : (∀ r ∈ suffixes (before ++ part :: parts) done
          (if part.nullable then takenFrom (before.length + 1) parts else []), r.Valid) ∧
          ∀ w, w ∈ (open Classical in
              if [] ∈ part.language then after c (parts.map Regex.language).prod else 0) ↔
            ∃ r ∈ suffixes (before ++ part :: parts) done
              (if part.nullable then takenFrom (before.length + 1) parts else []),
              w ∈ r.language := by
        by_cases nullable : part.nullable = true
        · rw [if_pos nullable] at tail ⊢
          rw [if_pos (validHead.nullable_iff.mp nullable)]
          have ih := ih (before ++ [part]) valid tail
          rwa [length_append, length_singleton, append_assoc, singleton_append] at ih
        · rw [if_neg nullable] at tail ⊢
          rw [if_neg (validHead.nullable_iff.not.mp nullable)]
          cases tail
          exact nothing rfl rfl
      refine ⟨fun r mem => (mem_append.mp mem).elim (validFirst r) (validRest r),
        fun w => ?_⟩
      rw [after_mul, Language.mem_add, first, rest]
      constructor
      · rintro (⟨r, mem, word⟩ | ⟨r, mem, word⟩)
        · exact ⟨r, mem_append_left _ mem, word⟩
        · exact ⟨r, mem_append_right _ mem, word⟩
      · rintro ⟨r, mem, word⟩
        rcases mem_append.mp mem with mem | mem
        · exact .inl ⟨r, mem, word⟩
        · exact .inr ⟨r, mem, word⟩

theorem forall₂_map_language {parts done : List Regex} (leaves : List.Forall₂ (Leaves c) parts done) :
    done.map Regex.language = (parts.map Regex.language).map (after c) ∧ ∀ d ∈ done, d.Valid := by
  induction leaves with
  | nil => exact ⟨rfl, fun d mem => (nomatch mem)⟩
  | cons head _ ih =>
    refine ⟨?_, forall_mem_cons.mpr ⟨head.1, ih.2⟩⟩
    rw [map_cons, map_cons, map_cons, ih.1, head.2]

theorem after_foldr_sup (Ls : List (Language Char)) :
    after c (Ls.foldr (· ⊔ ·) ⊥) = (Ls.map (after c)).foldr (· ⊔ ·) ⊥ := by
  induction Ls with
  | nil => rfl
  | cons L Ls ih =>
    rw [map_cons, foldr_cons, foldr_cons, ← ih]
    rfl

theorem after_foldr_inf (Ls : List (Language Char)) :
    after c (Ls.foldr (· ⊓ ·) ⊤) = (Ls.map (after c)).foldr (· ⊓ ·) ⊤ := by
  induction Ls with
  | nil => rfl
  | cons L Ls ih =>
    rw [map_cons, foldr_cons, foldr_cons, ← ih]
    rfl

theorem finish_spec (valid : node.Valid) {frame : DerivFrame} (eq : openNode node c = .inr frame)
    {done : List Regex} (leaves : List.Forall₂ (Leaves c) frame.pending done) :
    Leaves c node (DerivFrame.finish ⟨frame.build, [], done⟩) := by
  have single {inner : Regex} (leaves : List.Forall₂ (Leaves c) [inner] done) :
      ∃ d, done = [d] ∧ d.Denotes (after c inner.language) := by
    cases leaves with
    | cons head tail =>
      cases tail
      exact ⟨_, rfl, head⟩
  have validOp := valid.op
  rw [Leaves, ← node.language_op]
  unfold openNode at eq
  split at eq
  case h_1 | h_2 | h_3 | h_4 | h_5 | h_6 => cases eq
  case h_7 parts same =>
    obtain rfl := Sum.inr.inj eq
    rw [same] at validOp ⊢
    have taken := filterMap_takenFrom [] parts
    have leaves : List.Forall₂ (Leaves c) (leading parts) done := taken ▸ leaves
    obtain ⟨validSuffixes, words⟩ := suffixes_spec [] parts (allValid_iff.mp validOp) leaves
    have union := Regex.denotes_union validSuffixes
    refine ⟨union.1, union.2.trans ?_⟩
    ext w
    rw [mem_foldr_sup, Regex.exists_mem_map_language, RegexOp.language, languages_eq_map]
    exact (words w).symm
  case h_8 parts same =>
    obtain rfl := Sum.inr.inj eq
    obtain ⟨map, validDone⟩ := forall₂_map_language leaves
    rw [same, RegexOp.language, languages_eq_map, after_foldr_sup, ← map]
    exact Regex.denotes_union validDone
  case h_9 parts same =>
    obtain rfl := Sum.inr.inj eq
    obtain ⟨map, validDone⟩ := forall₂_map_language leaves
    rw [same, RegexOp.language, languages_eq_map, after_foldr_inf, ← map]
    exact Regex.denotes_inter validDone
  case h_10 inner same =>
    obtain rfl := Sum.inr.inj eq
    obtain ⟨d, rfl, denotes⟩ := single leaves
    obtain ⟨validUnion, language⟩ := denotes_union_single denotes
    have complement := Regex.denotes_complement validUnion
    rw [language] at complement
    rw [same]
    exact complement
  case h_11 inner same =>
    obtain rfl := Sum.inr.inj eq
    obtain ⟨d, rfl, denotes⟩ := single leaves
    rw [same, RegexOp.language, after_kstar]
    exact denotes_concat_pair denotes ⟨valid, Regex.language_of_op same⟩
  case h_12 inner same =>
    obtain rfl := Sum.inr.inj eq
    obtain ⟨d, rfl, denotes⟩ := single leaves
    rw [same] at validOp ⊢
    -- Skipping the first repetition adds nothing.
    have language : after c (RegexOp.plus inner).language =
        after c inner.language * inner.language∗ := by
      rw [RegexOp.language, after_mul, after_kstar]
      split
      · exact Language.add_self _
      · exact add_zero _
    rw [language]
    exact denotes_concat_pair denotes (Regex.denotes_star validOp)
  case h_13 inner min max same =>
    obtain rfl := Sum.inr.inj eq
    obtain ⟨d, rfl, denotes⟩ := single leaves
    rw [same] at validOp ⊢
    obtain ⟨validInner, bounds⟩ := validOp
    have pos : max ≠ some 0 := fun zero => Nat.lt_irrefl 0 (bounds 0 zero).2
    rw [RegexOp.language, after_repeated pos]
    exact denotes_concat_pair denotes (Regex.denotes_loopBounded validInner _ _)
  case h_14 inner same =>
    obtain rfl := Sum.inr.inj eq
    obtain ⟨d, rfl, denotes⟩ := single leaves
    rw [same, RegexOp.language, after_add, after_one, zero_add]
    exact denotes_union_single denotes

theorem driver_some (frame : DerivFrame) (frames : List DerivFrame) (d : Regex) :
    driver c (frame :: frames) (some d) = driver c (frame.receive (some d) :: frames) none := by
  obtain ⟨build, _ | ⟨child, pending⟩, done⟩ := frame
  · rw [DerivFrame.receive, driver, driver]
    rfl
  · rw [DerivFrame.receive, driver, driver]
    rfl

/-- Working off an operand hands its derivative back. -/
def Resolves (c : Char) (r d : Regex) : Prop :=
  ∀ build pending done frames, driver c (⟨build, r :: pending, done⟩ :: frames) none =
    driver c (⟨build, pending, done ++ [d]⟩ :: frames) none

theorem driver_operands {rs ds : List Regex} (resolves : List.Forall₂ (Resolves c) rs ds)
    (build : DerivBuild) (done : List Regex) (frames : List DerivFrame) :
    driver c (⟨build, rs, done⟩ :: frames) none =
      driver c frames (some (DerivFrame.finish ⟨build, [], done ++ ds⟩)) := by
  induction resolves generalizing done with
  | nil =>
    rw [driver, append_nil]
    rfl
  | @cons r d rs ds head _ ih =>
    rw [head, ih, append_assoc, singleton_append]

theorem exists_resolves {r : Regex} (valid : r.Valid) :
    ∃ d, Leaves c r d ∧ Resolves c r d ∧ r.derivative c = d := by
  -- Operands are smaller, so the induction is on the size.
  induction size : r.size using Nat.strong_induction_on generalizing r with
  | _ n ih =>
    obtain ⟨validNode, same⟩ := unwrapOption_spec (c := c) valid
    have leaves_of {d : Regex} (leaves : Leaves c (unwrapOption r) d) : Leaves c r d := by
      rwa [Leaves, same] at leaves
    cases opened : openDerivative r c with
    | inl d =>
      refine ⟨d, leaves_of (leaves_of_openNode opened), fun build pending done frames => ?_, ?_⟩
      · rw [driver]
        split
        · rename_i d' eq
          rw [opened] at eq
          obtain rfl := Sum.inl.inj eq
          exact driver_some _ _ _
        · rename_i frame eq
          rw [opened] at eq
          cases eq
      · rw [Regex.derivative, opened]
    | inr frame =>
      obtain ⟨done_nil, validPending⟩ := frame_of_openNode validNode opened
      have operands (rs : List Regex) (smaller : sizes rs < n) (valid : ∀ r ∈ rs, r.Valid) :
          ∃ ds, List.Forall₂ (Leaves c) rs ds ∧ List.Forall₂ (Resolves c) rs ds := by
        induction rs with
        | nil => exact ⟨[], .nil, .nil⟩
        | cons r rs ihs =>
          obtain ⟨head, tail⟩ := forall_mem_cons.mp valid
          rw [sizes] at smaller
          obtain ⟨d, leaves, resolves, -⟩ := ih r.size (Nat.lt_of_le_of_lt (Nat.le_add_right _ _)
            smaller) head rfl
          obtain ⟨ds, allLeave, allResolve⟩ := ihs (Nat.lt_of_le_of_lt (Nat.le_add_left _ _) smaller)
            tail
          exact ⟨d :: ds, .cons leaves allLeave, .cons resolves allResolve⟩
      obtain ⟨ds, leaves, resolves⟩ := operands frame.pending
        (size ▸ sizes_pending_lt_of_openDerivative opened) validPending
      have finish := finish_spec validNode opened leaves
      have worked (frames : List DerivFrame) : driver c (frame :: frames) none =
          driver c frames (some (DerivFrame.finish ⟨frame.build, [], ds⟩)) := by
        have run := driver_operands resolves frame.build [] frames
        rwa [← done_nil, done_nil, nil_append, ← done_nil] at run
      refine ⟨_, leaves_of finish, fun build pending done frames => ?_, ?_⟩
      · rw [driver]
        split
        · rename_i d' eq
          rw [opened] at eq
          cases eq
        · rename_i frame' eq
          rw [opened] at eq
          obtain rfl := Sum.inr.inj eq
          rw [worked, driver_some]
          rfl
      · rw [Regex.derivative, opened]
        dsimp only
        rw [worked, driver]
        rfl

theorem Regex.Valid.derivative {r : Regex} (valid : r.Valid) (c : Char) :
    (r.derivative c).Denotes (after c r.language) := by
  obtain ⟨d, leaves, -, rfl⟩ := exists_resolves (c := c) valid
  exact leaves

theorem matchesFrom_iff {r : Regex} (valid : r.Valid) (cs : List Char) :
    matchesFrom r cs = true ↔ cs ∈ r.language := by
  induction cs generalizing r with
  | nil => exact valid.nullable_iff
  | cons c cs ih =>
    obtain ⟨validDerivative, language⟩ := valid.derivative c
    have rest : cs ∈ (r.derivative c).language ↔ c :: cs ∈ r.language := by
      rw [language]
      exact Iff.rfl
    rw [matchesFrom]
    split
    · rename_i empty
      -- Without words nothing matches any more.
      rw [← rest, Regex.language_of_op (Regex.isEmpty_iff.mp empty)]
      exact iff_of_false Bool.false_ne_true (Language.notMem_zero cs)
    · rw [ih validDerivative, rest]

end Nixie.Strings
