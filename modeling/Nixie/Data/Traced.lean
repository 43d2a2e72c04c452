import Mathlib.Data.List.Basic

/-! Exact evaluations that record their steps, and performing these steps where they may fail. -/

namespace Nixie

/-- A value that may be missing, with the steps that led to it. -/
structure Traced (σ α : Type) where
  steps : List σ
  /-- The value, where the evaluation was not given up. -/
  result : Option α

namespace Traced

variable {σ α β : Type}

def bind (x : Traced σ α) (f : α → Traced σ β) : Traced σ β :=
  match x.result with
  | none => ⟨x.steps, none⟩
  | some a => ⟨x.steps ++ (f a).steps, (f a).result⟩

instance : Monad (Traced σ) where
  pure a := ⟨[], some a⟩
  bind := bind

def giveUp : Traced σ α := ⟨[], none⟩

def step (value : σ → α) (s : σ) : Traced σ α := ⟨[s], some (value s)⟩

theorem bind_result {x : Traced σ α} {f : α → Traced σ β} {b : β} :
    (x >>= f).result = some b ↔ ∃ a, x.result = some a ∧ (f a).result = some b := by
  show (x.bind f).result = some b ↔ _
  rw [bind]
  cases x.result with
  | none => simp
  | some a => simp

@[simp] theorem pure_result {a b : α} : (pure a : Traced σ α).result = some b ↔ a = b :=
  Option.some_inj

@[simp] theorem step_result {value : σ → α} {s : σ} {a : α} :
    (step value s).result = some a ↔ value s = a := Option.some_inj

@[simp] theorem giveUp_result {a : α} : (giveUp : Traced σ α).result = some a ↔ False := by
  simp [giveUp]

theorem bind_assoc {γ : Type} (x : Traced σ α) (f : α → Traced σ β) (g : β → Traced σ γ) :
    x >>= f >>= g = x >>= fun a => f a >>= g := by
  show (x.bind f).bind g = x.bind fun a => (f a).bind g
  obtain ⟨steps, result⟩ := x
  cases result with
  | none => rfl
  | some a =>
    cases second : (f a).result with
    | none => simp [bind, second]
    | some b => simp [bind, second]

@[simp] theorem pure_bind (a : α) (f : α → Traced σ β) : (pure a : Traced σ α) >>= f = f a := rfl

@[simp] theorem bind_pure (x : Traced σ α) : x >>= pure = x := by
  show x.bind pure = x
  obtain ⟨steps, result⟩ := x
  cases result with
  | none => rfl
  | some a => simp [bind, Pure.pure]

@[simp] theorem giveUp_bind (f : α → Traced σ β) : (giveUp : Traced σ α) >>= f = giveUp := rfl

end Traced

inductive Stop where
  | overflow
  | givenUp
  deriving DecidableEq, Repr

section

variable {σ α β : Type} (fits : σ → Bool)

def perform (x : Traced σ α) : Except Stop α :=
  if x.steps.all fits then
    match x.result with
    | some a => .ok a
    | none => .error .givenUp
  else .error .overflow

@[simp] theorem perform_pure (a : α) : perform fits (pure a) = .ok a := rfl

@[simp] theorem perform_giveUp : perform fits (Traced.giveUp : Traced σ α) = .error .givenUp := rfl

theorem perform_bind (x : Traced σ α) (f : α → Traced σ β) :
    perform fits (x >>= f) = perform fits x >>= fun a => perform fits (f a) := by
  show perform fits (x.bind f) = (perform fits x).bind fun a => perform fits (f a)
  obtain ⟨steps, result⟩ := x
  by_cases all : steps.all fits = true
  · cases result with
    | none =>
      -- Nothing follows what was given up.
      simp only [Traced.bind, perform, all, if_true]
      rfl
    | some a =>
      simp only [Traced.bind, perform, List.all_append, all, Bool.true_and, if_true]
      rfl
  · -- What follows does not change that a step does not fit.
    cases result with
    | none =>
      simp only [Traced.bind, perform, Bool.eq_false_iff.mpr all, Bool.false_eq_true, if_false]
      rfl
    | some a =>
      simp only [Traced.bind, perform, List.all_append, Bool.eq_false_iff.mpr all, Bool.false_and,
        Bool.false_eq_true, if_false]
      rfl

theorem perform_step (value : σ → α) (s : σ) :
    perform fits (Traced.step value s) = if fits s then .ok (value s) else .error .overflow := by
  simp [perform, Traced.step]

end

end Nixie
