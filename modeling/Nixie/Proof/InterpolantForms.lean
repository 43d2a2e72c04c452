import Nixie.Proof.Interpolant

/-! What interpolant formulas mean, how they are put together, and the symbols of their text. -/

namespace Nixie.Craig

open List

variable (classes : CharClasses)

def literals (conclusion : Text) : Set (Text × Bool) :=
  { l | ∃ lit ∈ parseClauseLiterals classes conclusion, (lit.atom, lit.positive) = l }

/-- A clause holds under an assignment. -/
def ClauseHolds (ν : Text → Bool) (conclusion : Text) : Prop :=
  ∃ lit ∈ parseClauseLiterals classes conclusion, ν lit.atom = lit.positive

namespace IForm

mutual

def eval (ν : Text → Bool) : IForm → Prop
  | .true_ => True
  | .false_ => False
  | .lit text => ν (parseLiteral classes text).atom = (parseLiteral classes text).positive
  | .and terms => evalAll ν terms
  | .or terms => evalAny ν terms

def evalAll (ν : Text → Bool) : List IForm → Prop
  | [] => True
  | term :: rest => eval ν term ∧ evalAll ν rest

def evalAny (ν : Text → Bool) : List IForm → Prop
  | [] => False
  | term :: rest => eval ν term ∨ evalAny ν rest

end

mutual

def texts : IForm → List Text
  | .true_ | .false_ => []
  | .lit text => [text]
  | .and terms | .or terms => textsAll terms

def textsAll : List IForm → List Text
  | [] => []
  | term :: rest => texts term ++ textsAll rest

end

theorem induct {P : IForm → Prop} (true_ : P .true_) (false_ : P .false_)
    (lit : ∀ text, P (.lit text)) (and : ∀ terms, (∀ term ∈ terms, P term) → P (.and terms))
    (or : ∀ terms, (∀ term ∈ terms, P term) → P (.or terms)) (form : IForm) : P form := by
  refine @rec P (fun terms => ∀ term ∈ terms, P term)
    true_ false_ lit and or (fun _ mem => nomatch mem) ?_ form
  intro term rest head tail other mem
  rcases mem_cons.mp mem with rfl | mem
  · exact head
  · exact tail other mem

variable {classes} {ν : Text → Bool}

theorem evalAll_iff (terms : List IForm) :
    evalAll classes ν terms ↔ ∀ term ∈ terms, eval classes ν term := by
  induction terms with
  | nil => simp [evalAll]
  | cons term rest ih => rw [evalAll, ih, forall_mem_cons]

theorem evalAny_iff (terms : List IForm) :
    evalAny classes ν terms ↔ ∃ term ∈ terms, eval classes ν term := by
  induction terms with
  | nil => simp [evalAny]
  | cons term rest ih => rw [evalAny, ih, exists_mem_cons_iff]

theorem mem_textsAll {text : Text} (terms : List IForm) :
    text ∈ textsAll terms ↔ ∃ term ∈ terms, text ∈ texts term := by
  induction terms with
  | nil => simp [textsAll]
  | cons term rest ih => rw [textsAll, mem_append, ih, exists_mem_cons_iff]

theorem eq_of_eq (form : IForm) : ∀ {form'}, eq form form' = true → form = form' := by
  have all : ∀ {terms : List IForm}, (∀ term ∈ terms, ∀ {other}, eq term other = true →
      term = other) → ∀ {others}, eqAll terms others = true → terms = others := by
    intro terms
    induction terms with
    | nil =>
      intro _ others same
      cases others with
      | nil => rfl
      | cons other others => cases same
    | cons term rest ih =>
      intro each others same
      cases others with
      | nil => cases same
      | cons other others =>
        rw [eqAll, Bool.and_eq_true] at same
        rw [each term mem_cons_self same.1,
          ih (fun term mem => each term (mem_cons_of_mem _ mem)) same.2]
  induction form using induct with
  | true_ | false_ =>
    intro form' same
    cases form' <;> first | rfl | cases same
  | lit text =>
    intro form' same
    cases form' with
    | lit text' => exact congrArg _ (eq_of_beq same)
    | _ => cases same
  | and terms ih =>
    intro form' same
    cases form' with
    | and terms' => exact congrArg _ (all ih same)
    | _ => cases same
  | or terms ih =>
    intro form' same
    cases form' with
    | or terms' => exact congrArg _ (all ih same)
    | _ => cases same

theorem mem_push {flat : List IForm} {term other : IForm} :
    other ∈ push flat term ↔ other ∈ flat ∨ other = term := by
  rw [push]
  split_ifs with present
  · obtain ⟨found, mem, same⟩ := any_eq_true.mp present
    obtain rfl := eq_of_eq found same
    exact ⟨.inl, fun either => either.elim id fun eq => eq ▸ mem⟩
  · rw [mem_append, mem_singleton]

/-- A role of terms that fits a property of all terms. -/
def Fits (P : IForm → Prop) (role : IForm → Role) : Prop :=
  ∀ term, match role term with
    | .skip => P term
    | .stop => ¬P term
    | .flatten inner => P term ↔ ∀ other ∈ inner, P other
    | .keep => True

theorem collect_spec {P : IForm → Prop} {role : IForm → Role} (fits : Fits P role)
    (terms : List IForm) : ∀ flat : List IForm,
    match collect role flat terms with
    | none => ¬∀ term ∈ terms, P term
    | some out => (∀ term ∈ out, P term) ↔ (∀ term ∈ flat, P term) ∧ ∀ term ∈ terms, P term := by
  induction terms with
  | nil =>
    intro flat
    simp [collect]
  | cons term rest ih =>
    intro flat
    -- Some list of terms is collected further, which stands for the old one and the term.
    have further : ∀ more : List IForm,
        ((∀ other ∈ more, P other) ↔ (∀ other ∈ flat, P other) ∧ P term) →
        match collect role more rest with
        | none => ¬∀ other ∈ term :: rest, P other
        | some out => (∀ other ∈ out, P other) ↔
            (∀ other ∈ flat, P other) ∧ ∀ other ∈ term :: rest, P other := by
      intro more same
      have step := ih more
      cases collected : collect role more rest with
      | none =>
        rw [collected] at step
        exact fun all => step fun other mem => all other (mem_cons_of_mem _ mem)
      | some out =>
        rw [collected] at step
        exact step.trans (by rw [same, forall_mem_cons, and_assoc])
    have fit := fits term
    rw [collect]
    cases act : role term with
    | stop =>
      rw [act] at fit
      exact fun all => fit (all term mem_cons_self)
    | skip =>
      rw [act] at fit
      exact further flat (by simp [fit])
    | flatten inner =>
      rw [act] at fit
      have fit : P term ↔ ∀ other ∈ inner, P other := fit
      refine further (flat ++ inner) ?_
      rw [fit]
      simp only [mem_append, or_imp, forall_and]
    | keep =>
      refine further (push flat term) ?_
      simp only [mem_push, or_imp, forall_and, forall_eq]

theorem collect_texts {role : IForm → Role}
    (lies : ∀ term inner, role term = .flatten inner → texts term = textsAll inner)
    (terms : List IForm) :
    ∀ {flat out : List IForm}, collect role flat terms = some out → ∀ text ∈ textsAll out,
      text ∈ textsAll flat ∨ text ∈ textsAll terms := by
  induction terms with
  | nil =>
    intro flat out collected text mem
    obtain rfl := Option.some.inj collected
    exact .inl mem
  | cons term rest ih =>
    intro flat out collected text mem
    rw [collect] at collected
    split at collected
    · exact (ih collected text mem).imp_right (mem_append_right _)
    · cases collected
    · rename_i inner act
      rcases ih collected text mem with old | new
      · obtain ⟨other, either, here⟩ := (mem_textsAll _).mp old
        rcases mem_append.mp either with inFlat | inInner
        · exact .inl ((mem_textsAll _).mpr ⟨other, inFlat, here⟩)
        · refine .inr (mem_append_left _ ?_)
          rw [lies term inner act]
          exact (mem_textsAll _).mpr ⟨other, inInner, here⟩
      · exact .inr (mem_append_right _ new)
    · rcases ih collected text mem with old | new
      · obtain ⟨other, either, here⟩ := (mem_textsAll _).mp old
        rcases mem_push.mp either with inFlat | rfl
        · exact .inl ((mem_textsAll _).mpr ⟨other, inFlat, here⟩)
        · exact .inr (mem_append_left _ here)
      · exact .inr (mem_append_right _ new)

variable (classes) in
theorem andRole_fits (ν : Text → Bool) : Fits (eval classes ν) andRole := by
  intro term
  cases term with
  | true_ => exact trivial
  | false_ => exact id
  | lit text => exact trivial
  | and terms => exact evalAll_iff terms
  | or terms => exact trivial

variable (classes) in
theorem orRole_fits (ν : Text → Bool) : Fits (fun term => ¬eval classes ν term) orRole := by
  intro term
  cases term with
  | true_ => exact fun holds => holds trivial
  | false_ => exact id
  | lit text => exact trivial
  | and terms => exact trivial
  | or terms =>
    change ¬evalAny classes ν terms ↔ _
    rw [evalAny_iff]
    simp only [not_exists, not_and]

theorem eval_mkAnd (terms : List IForm) :
    eval classes ν (mkAnd terms) ↔ ∀ term ∈ terms, eval classes ν term := by
  have spec := collect_spec (andRole_fits classes ν) terms []
  rw [mkAnd]
  cases collected : collect andRole [] terms with
  | none =>
    rw [collected] at spec
    exact ⟨False.elim, spec⟩
  | some out =>
    rw [collected] at spec
    have all : (∀ term ∈ out, eval classes ν term) ↔ ∀ term ∈ terms, eval classes ν term := by
      simpa using spec
    rw [← all]
    match out with
    | [] => simp [eval]
    | [term] => simp
    | first :: second :: rest => exact evalAll_iff _

theorem eval_mkOr (terms : List IForm) :
    eval classes ν (mkOr terms) ↔ ∃ term ∈ terms, eval classes ν term := by
  have spec := collect_spec (orRole_fits classes ν) terms []
  rw [mkOr]
  cases collected : collect orRole [] terms with
  | none =>
    rw [collected] at spec
    have some_term : ∃ term ∈ terms, eval classes ν term := by
      by_contra none
      exact spec fun term mem holds => none ⟨term, mem, holds⟩
    exact ⟨fun _ => some_term, fun _ => trivial⟩
  | some out =>
    rw [collected] at spec
    have all : (∃ term ∈ out, eval classes ν term) ↔ ∃ term ∈ terms, eval classes ν term := by
      rw [← not_iff_not]
      simpa using spec
    rw [← all]
    match out with
    | [] => simp [eval]
    | [term] => simp
    | first :: second :: rest => exact evalAny_iff _

theorem texts_andRole (term : IForm) (inner : List IForm) (act : andRole term = .flatten inner) :
    texts term = textsAll inner := by
  cases term with
  | and terms => cases act; rfl
  | _ => cases act

theorem texts_orRole (term : IForm) (inner : List IForm) (act : orRole term = .flatten inner) :
    texts term = textsAll inner := by
  cases term with
  | or terms => cases act; rfl
  | _ => cases act

theorem texts_mkAnd {terms : List IForm} {text : Text} (mem : text ∈ texts (mkAnd terms)) :
    ∃ term ∈ terms, text ∈ texts term := by
  rw [mkAnd] at mem
  cases collected : collect andRole [] terms with
  | none =>
    rw [collected] at mem
    cases mem
  | some out =>
    rw [collected] at mem
    have inOut : text ∈ textsAll out := by
      match out, mem with
      | [term], mem => exact mem_append_left _ mem
      | first :: second :: rest, mem => exact mem
    have found := collect_texts texts_andRole terms collected text inOut
    exact (mem_textsAll _).mp (found.resolve_left fun none => nomatch none)

theorem texts_mkOr {terms : List IForm} {text : Text} (mem : text ∈ texts (mkOr terms)) :
    ∃ term ∈ terms, text ∈ texts term := by
  rw [mkOr] at mem
  cases collected : collect orRole [] terms with
  | none =>
    rw [collected] at mem
    cases mem
  | some out =>
    rw [collected] at mem
    have inOut : text ∈ textsAll out := by
      match out, mem with
      | [term], mem => exact mem_append_left _ mem
      | first :: second :: rest, mem => exact mem
    have found := collect_texts texts_orRole terms collected text inOut
    exact (mem_textsAll _).mp (found.resolve_left fun none => nomatch none)

theorem mem_extractSymbols_render (form : IForm) {s : Text} :
    s ∈ extractSymbols classes form.render ↔
      ∃ text ∈ form.texts, s ∈ extractSymbols classes text := by
  -- After a text each of the terms is separated by a blank.
  have all : ∀ (terms : List IForm), (∀ term ∈ terms, s ∈ extractSymbols classes term.render ↔
      ∃ text ∈ term.texts, s ∈ extractSymbols classes text) → ∀ front : Text,
      (s ∈ extractSymbols classes (front ++ renderAll terms) ↔ s ∈ extractSymbols classes front ∨
          ∃ text ∈ textsAll terms, s ∈ extractSymbols classes text) := by
    intro terms
    induction terms with
    | nil =>
      intro _ front
      have nothing : extractSymbols classes [] = [] := rfl
      rw [renderAll, extractSymbols_append (not_word (by decide)), nothing]
      simp [textsAll]
    | cons term rest ih =>
      intro each front
      have head := each term mem_cons_self
      rw [renderAll, extractSymbols_append (not_word (by decide)), mem_append,
        ih (fun other mem => each other (mem_cons_of_mem _ mem)), head, textsAll]
      simp only [mem_append, or_and_right, exists_or]
  have nothing : extractSymbols classes [] = [] := rfl
  induction form using induct with
  | true_ =>
    rw [render, extractSymbols_keyword rfl (by decide)]
    simp [texts]
  | false_ =>
    rw [render, extractSymbols_keyword rfl (by decide)]
    simp [texts]
  | lit text => simp [render, texts]
  | and terms ih =>
    rw [render, ← nil_append ('(' :: _), extractSymbols_append (not_word (by decide)),
      nothing, nil_append, all terms ih, extractSymbols_keyword rfl (by decide),
      texts]
    simp
  | or terms ih =>
    rw [render, ← nil_append ('(' :: _), extractSymbols_append (not_word (by decide)),
      nothing, nil_append, all terms ih, extractSymbols_keyword rfl (by decide),
      texts]
    simp

end IForm

end Nixie.Craig
