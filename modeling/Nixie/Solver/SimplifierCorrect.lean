import Nixie.Ast.FreeVars
import Nixie.Solver.SimplifierLoop

/-! Contradictions that are reported, and the propagation of units. -/

namespace Nixie.Ast.Simplifier

open List Function

/-- A list of assertions has a model. -/
def Satisfiable (assertions : List Term) : Prop :=
  ∃ I : Interp, I.Lawful ∧ ∃ ν, I.Respects ν ∧ ∀ term ∈ assertions, (term.eval I ν).holds

section

variable {I : Interp} {ν : I.Assignment}

/-- What is known is consistent with a model. -/
structure Progress.Meets (progress : Progress) (ν : I.Assignment) : Prop where
  consistent : progress.foundFalse = false
  constructed : ∀ var con, progress.varConstructors var = some con →
    var.sort = .uninterpreted con.data ∧
      ∃ vs, I.HasSorts con.fields vs ∧ var.eval I ν = I.constructor con vs

theorem extractVarConstructor_spec (lawful : I.Lawful) (respects : I.Respects ν)
    {lhs rhs var : Term} {con : Constructor} (eq : extractVarConstructor lhs rhs = some (var, con))
    (formula : (Term.node .eq [lhs, rhs]).IsFormula)
    (holds : ((Term.node .eq [lhs, rhs]).eval I ν).holds) :
    var.sort = .uninterpreted con.data ∧
      ∃ vs, I.HasSorts con.fields vs ∧ var.eval I ν = I.constructor con vs := by
  obtain ⟨left, right, sorts⟩ := isFormula_eq.mp formula
  rw [holds_eq] at holds
  unfold extractVarConstructor at eq
  split at eq
  · rename_i name sort con' args
    obtain ⟨rfl, rfl⟩ := Prod.mk.inj (Option.some.inj eq)
    obtain ⟨fields, each⟩ := wellSorted_node.mp right
    refine ⟨by rw [sorts, Term.sort_node]; rfl, _, hasSorts_fields lawful respects fields each, ?_⟩
    rw [holds, Term.eval_node]
    rfl
  · rename_i con' args name sort
    obtain ⟨rfl, rfl⟩ := Prod.mk.inj (Option.some.inj eq)
    obtain ⟨fields, each⟩ := wellSorted_node.mp left
    refine ⟨by rw [← sorts, Term.sort_node]; rfl, _,
      hasSorts_fields lawful respects fields each, ?_⟩
    rw [← holds, Term.eval_node]
    rfl
  · cases eq

variable {term : Term}

theorem Progress.Meets.take {progress : Progress} (meets : progress.Meets ν) (lawful : I.Lawful)
    (respects : I.Respects ν) (formula : term.IsFormula)
    (holds : (term.eval I ν).holds) : (progress.take term).Meets ν := by
  unfold Progress.take
  split
  · exact meets
  have consistent : (progress.foundFalse || decide (term = mkFalse)) = false := by
    rw [meets.consistent, Bool.false_or, decide_eq_false_iff_not]
    rintro rfl
    exact holds_false.mp holds
  dsimp only
  split
  · split
    · rename_i var con found
      obtain ⟨sort, vs, has, value⟩ :=
        extractVarConstructor_spec lawful respects found formula holds
      split
      · -- Another constructor would have to build the same value.
        rename_i existing known
        obtain ⟨sort', vs', has', value'⟩ := meets.constructed var existing known
        have data : existing.data = con.data := SortKind.uninterpreted.inj (sort'.symm.trans sort)
        have same : existing = con := (lawful.free existing con vs' vs data has' has
          (value'.symm.trans value)).1
        refine ⟨?_, meets.constructed⟩
        rw [consistent, Bool.false_or, decide_eq_false_iff_not, not_not]
        exact same
      · refine ⟨consistent, fun other con' stored => ?_⟩
        dsimp only at stored
        by_cases same : other = var
        · subst same
          rw [update_self] at stored
          obtain rfl := Option.some.inj stored
          exact ⟨sort, vs, has, value⟩
        · rw [update_of_ne same] at stored
          exact meets.constructed other con' stored
    · exact ⟨consistent, meets.constructed⟩
  · exact ⟨consistent, meets.constructed⟩

end

variable {assertions : List Term}

theorem simplifyEach_spec (before : InternOrder)
    (each : ∀ term ∈ assertions, term.IsFormula) (progress : Progress) {cache : Cache}
    (sound : cache.Sound) : ∃ (progress' : Progress) (cache' : Cache) (steps : Nat),
      (∀ fuel, steps ≤ fuel →
        simplifyEach before fuel assertions progress cache = some (progress', cache')) ∧
      cache'.Sound ∧ ∀ I : Interp, I.Lawful → ∀ ν : I.Assignment, I.Respects ν →
        (∀ term ∈ assertions, (term.eval I ν).holds) → progress.Meets ν → progress'.Meets ν := by
  induction assertions generalizing progress cache with
  | nil => exact ⟨progress, cache, 0, fun _ _ => rfl, sound, fun _ _ _ _ _ meets => meets⟩
  | cons assertion rest ih =>
    obtain ⟨head, tail⟩ := forall_mem_cons.mp each
    obtain ⟨simplified, cache', steps, run, stands, sound'⟩ := simplify_spec before assertion sound
    obtain ⟨progress', cache'', steps', run', sound'', keeps⟩ :=
      ih tail (progress.take simplified) sound'
    refine ⟨progress', cache'', max steps steps', fun fuel enough => ?_, sound'', ?_⟩
    · rw [simplifyEach, run fuel (by omega)]
      exact run' fuel (by omega)
    · intro I lawful ν respects model meets
      obtain ⟨holds, others⟩ := forall_mem_cons.mp model
      rw [← stands.eval_eq head.1 lawful respects] at holds
      exact keeps I lawful ν respects others
        (meets.take lawful respects (stands.isFormula head) holds)

theorem simplifyAssertions_spec (before : InternOrder)
    (each : ∀ term ∈ assertions, term.IsFormula) {cache : Cache} (sound : cache.Sound) :
    ∃ (simplified : List Term) (foundFalse : Bool) (cache' : Cache) (steps : Nat),
      (∀ fuel, steps ≤ fuel → simplifyAssertions before fuel assertions cache =
        some ((simplified, foundFalse), cache')) ∧
      cache'.Sound ∧ (foundFalse = true → ¬Satisfiable assertions) := by
  obtain ⟨progress, cache', steps, run, sound', keeps⟩ :=
    simplifyEach_spec before each ⟨[], false, fun _ => none⟩ sound
  refine ⟨progress.simplified, progress.foundFalse, cache', steps, fun fuel enough => ?_, sound',
    ?_⟩
  · rw [simplifyAssertions, run fuel enough]
    rfl
  · rintro found ⟨I, lawful, ν, respects, model⟩
    have meets := keeps I lawful ν respects model ⟨rfl, fun _ _ known => (nomatch known)⟩
    rw [meets.consistent] at found
    cases found

theorem substituteAll_eq (units : Units) (args : List Term) :
    substituteAll units args = args.map (substituteUnits units) := by
  induction args with
  | nil => rw [substituteAll, map_nil]
  | cons arg rest ih => rw [substituteAll, ih, map_cons]

/-- Two assignments agree about a formula as far as the replacement of units looks into it. -/
inductive Agrees (units : Units) {I : Interp} (ν ν' : I.Assignment) : Term → Prop
  | unit {term : Term} {value : Bool} (known : units term = some value)
      (same : (term.eval I ν).holds ↔ value = true) : Agrees units ν ν' term
  | not {arg : Term} (unknown : units (.node .not [arg]) = none) (inner : Agrees units ν ν' arg) :
      Agrees units ν ν' (.node .not [arg])
  | and {args : List Term} (unknown : units (.node .and args) = none)
      (inner : ∀ arg ∈ args, Agrees units ν ν' arg) : Agrees units ν ν' (.node .and args)
  | or {args : List Term} (unknown : units (.node .or args) = none)
      (inner : ∀ arg ∈ args, Agrees units ν ν' arg) : Agrees units ν ν' (.node .or args)
  | leaf {term : Term} (unknown : units term = none)
      (kept : substituteUnits units term = term)
      (same : (term.eval I ν).holds ↔ (term.eval I ν').holds) : Agrees units ν ν' term

variable {I : Interp}

variable {ν : I.Assignment}

theorem Agrees.substitute {units : Units} (lawful : I.Lawful) {ν' : I.Assignment}
    (respects' : I.Respects ν') (agrees : Agrees units ν ν' term) (formula : term.IsFormula) :
    (substituteUnits units term).IsFormula ∧
      (((substituteUnits units term).eval I ν').holds ↔ (term.eval I ν).holds) := by
  induction agrees with
  | @unit term value known same =>
    have replaced : substituteUnits units term = mkBool value := by
      unfold substituteUnits
      rw [known]
    rw [replaced, holds_bool, same]
    exact ⟨isFormula_bool value, Iff.rfl⟩
  | @not arg unknown inner ih =>
    obtain ⟨_, single, formula⟩ := isFormula_not.mp formula
    obtain ⟨rfl, -⟩ := cons.inj single
    obtain ⟨formula', same⟩ := ih formula
    have negation : (Term.node .not [substituteUnits units arg]).IsFormula :=
      isFormula_not.mpr ⟨_, rfl, formula'⟩
    have stands : StandsFor (substituteUnits units (.node .not [arg]))
        (.node .not [substituteUnits units arg]) := by
      rw [substituteUnits, unknown]
      dsimp only
      split
      · rename_i kept
        rw [kept]
      · exact mkNot_standsFor _
    refine ⟨stands.isFormula negation, ?_⟩
    rw [stands.eval_eq negation.1 lawful respects', holds_not, holds_not, same]
  | @and args unknown inner ih =>
    have each := isFormula_and.mp formula
    have conjunction : (Term.node .and (args.map (substituteUnits units))).IsFormula :=
      isFormula_and.mpr (forall_mem_map.mpr fun arg mem =>
        (ih arg mem (each arg mem)).1)
    have stands : StandsFor (substituteUnits units (.node .and args))
        (.node .and (args.map (substituteUnits units))) := by
      rw [substituteUnits, unknown, substituteAll_eq]
      dsimp only
      split
      · rename_i kept
        rw [kept]
      · exact mkAnd_standsFor _
    refine ⟨stands.isFormula conjunction, ?_⟩
    rw [stands.eval_eq conjunction.1 lawful respects', holds_and, holds_and, forall_mem_map]
    exact forall₂_congr fun arg mem => (ih arg mem (each arg mem)).2
  | @or args unknown inner ih =>
    have each := isFormula_or.mp formula
    have disjunction : (Term.node .or (args.map (substituteUnits units))).IsFormula :=
      isFormula_or.mpr (forall_mem_map.mpr fun arg mem =>
        (ih arg mem (each arg mem)).1)
    have stands : StandsFor (substituteUnits units (.node .or args))
        (.node .or (args.map (substituteUnits units))) := by
      rw [substituteUnits, unknown, substituteAll_eq]
      dsimp only
      split
      · rename_i kept
        rw [kept]
      · exact mkOr_standsFor _
    refine ⟨stands.isFormula disjunction, ?_⟩
    rw [stands.eval_eq disjunction.1 lawful respects', holds_or, holds_or]
    constructor
    · rintro ⟨_, mapped, holds⟩
      obtain ⟨arg, mem, rfl⟩ := mem_map.mp mapped
      exact ⟨arg, mem, (ih arg mem (each arg mem)).2.mp holds⟩
    · rintro ⟨arg, mem, holds⟩
      exact ⟨_, mem_map_of_mem mem, (ih arg mem (each arg mem)).2.mpr holds⟩
  | leaf _ kept same =>
    rw [kept]
    exact ⟨formula, same.symm⟩

theorem substituteUnits_leaf {units : Units} (unknown : units term = none)
    (not : ∀ arg, term ≠ .node .not [arg]) (and : ∀ args, term ≠ .node .and args)
    (or : ∀ args, term ≠ .node .or args) : substituteUnits units term = term := by
  unfold substituteUnits
  rw [unknown]
  dsimp only
  split
  · exact absurd rfl (not _)
  · exact absurd rfl (and _)
  · exact absurd rfl (or _)
  · rfl

theorem agrees_self {units : Units}
    (model : ∀ term value, units term = some value → ((term.eval I ν).holds ↔ value = true))
    (term : Term) : Agrees units ν ν term := by
  induction term using Term.induct with
  | var name sort =>
    cases known : units (.var name sort) with
    | some value => exact .unit known (model _ value known)
    | none => exact .leaf known (substituteUnits_leaf known (by simp) (by simp) (by simp)) Iff.rfl
  | bind binder scopes args _ =>
    cases known : units (.bind binder scopes args) with
    | some value => exact .unit known (model _ value known)
    | none => exact .leaf known (substituteUnits_leaf known (by simp) (by simp) (by simp)) Iff.rfl
  | node kind args ih =>
    cases known : units (.node kind args) with
    | some value => exact .unit known (model _ value known)
    | none =>
      by_cases not : ∃ arg, Term.node kind args = .node .not [arg]
      · obtain ⟨arg, same⟩ := not
        obtain ⟨rfl, rfl⟩ := Term.node.inj same
        exact .not known (ih arg mem_cons_self)
      by_cases and : kind = .and
      · subst and
        exact .and known ih
      by_cases or : kind = .or
      · subst or
        exact .or known ih
      refine .leaf known (substituteUnits_leaf known (fun arg same => not ⟨arg, same⟩) ?_ ?_) Iff.rfl
      · exact fun _ same => and (Term.node.inj same).1
      · exact fun _ same => or (Term.node.inj same).1

/-- A term whose negation is asserted, or an asserted variable. -/
def UnitAtom (assertions : List Term) (term : Term) : Prop :=
  .node .not [term] ∈ assertions ∨ term ∈ assertions ∧ ∃ name sort, term = .var name sort

/-- The unit atoms occur under negations, conjunctions and disjunctions only. -/
inductive Visible (assertions : List Term) : Term → Prop
  | unit {term : Term} (atom : UnitAtom assertions term) : Visible assertions term
  | not {arg : Term} (inner : Visible assertions arg) : Visible assertions (.node .not [arg])
  | and {args : List Term} (inner : ∀ arg ∈ args, Visible assertions arg) :
      Visible assertions (.node .and args)
  | or {args : List Term} (inner : ∀ arg ∈ args, Visible assertions arg) :
      Visible assertions (.node .or args)
  | leaf {term : Term}
      (absent : ∀ name sort, UnitAtom assertions (.var name sort) → (name, sort) ∉ term.freeVars) :
      Visible assertions term

/-- All unit atoms are Boolean variables, and all their occurrences are replaced. -/
structure UnitsVisible (assertions : List Term) : Prop where
  atoms : ∀ term, UnitAtom assertions term → ∃ name, term = .var name .bool
  visible : ∀ term ∈ assertions, Visible assertions term

theorem collectUnits_isSome (assertions : List Term) (term : Term) :
    (collectUnits assertions term).isSome ↔ UnitAtom assertions term := by
  have fold (units : Units) : (assertions.foldl noteUnit units term).isSome ↔
      (units term).isSome ∨ UnitAtom assertions term := by
    induction assertions generalizing units with
    | nil => simp [UnitAtom]
    | cons assertion rest ih =>
      rw [foldl_cons, ih]
      have noted : (noteUnit units assertion term).isSome ↔ (units term).isSome ∨
          assertion = .node .not [term] ∨
            assertion = term ∧ ∃ name sort, term = .var name sort := by
        unfold noteUnit
        split
        · rename_i inner
          by_cases same : term = inner
          · subst same
            simp
          · rw [update_of_ne same]
            have differs : ¬(Term.node .not [inner] = .node .not [term]) := fun eq =>
              same (cons.inj (Term.node.inj eq).2).1.symm
            have shape : ¬(Term.node .not [inner] = term ∧ ∃ name sort, term = .var name sort) := by
              rintro ⟨rfl, _, _, eq⟩
              cases eq
            simp only [differs, shape, or_false]
        · rename_i name sort
          by_cases same : term = .var name sort
          · subst same
            simp
          · rw [update_of_ne same]
            have first : ¬(Term.var name sort = .node .not [term]) := fun eq => (nomatch eq)
            have second : ¬(Term.var name sort = term ∧ ∃ name sort, term = .var name sort) :=
              fun both => same both.1.symm
            simp only [first, second, or_false]
        · rename_i not var
          have first : assertion ≠ .node .not [term] := fun eq => not term eq
          have second : ¬(assertion = term ∧ ∃ name sort, term = .var name sort) := by
            rintro ⟨rfl, name, sort, eq⟩
            exact var name sort eq
          simp only [first, second, or_false]
      rw [noted]
      simp only [UnitAtom, mem_cons]
      constructor
      · rintro ((known | rfl | ⟨rfl, shape⟩) | (mem | ⟨mem, shape⟩))
        · exact .inl known
        · exact .inr (.inl (.inl rfl))
        · exact .inr (.inr ⟨.inl rfl, shape⟩)
        · exact .inr (.inl (.inr mem))
        · exact .inr (.inr ⟨.inr mem, shape⟩)
      · rintro (known | (eq | mem) | ⟨eq | mem, shape⟩)
        · exact .inl (.inl known)
        · exact .inl (.inr (.inl eq.symm))
        · exact .inr (.inl mem)
        · exact .inl (.inr (.inr ⟨eq.symm, shape⟩))
        · exact .inr (.inr ⟨mem, shape⟩)
  rw [collectUnits, fold]
  simp

theorem collectUnits_holds (model : ∀ term ∈ assertions, (term.eval I ν).holds) {value : Bool}
    (known : collectUnits assertions term = some value) :
    (term.eval I ν).holds ↔ value = true := by
  have fold (units : Units)
      (sound : ∀ term value, units term = some value → ((term.eval I ν).holds ↔ value = true)) :
      ∀ term value, assertions.foldl noteUnit units term = some value →
        ((term.eval I ν).holds ↔ value = true) := by
    clear known
    induction assertions generalizing units with
    | nil => exact sound
    | cons assertion rest ih =>
      obtain ⟨head, tail⟩ := forall_mem_cons.mp model
      refine ih tail (noteUnit units assertion) fun other value found => ?_
      unfold noteUnit at found
      split at found
      · rename_i inner
        by_cases same : other = inner
        · subst same
          rw [update_self] at found
          obtain rfl := Option.some.inj found
          simpa using head
        · rw [update_of_ne same] at found
          exact sound other value found
      · rename_i name sort
        by_cases same : other = .var name sort
        · subst same
          rw [update_self] at found
          obtain rfl := Option.some.inj found
          simpa using head
        · rw [update_of_ne same] at found
          exact sound other value found
      · exact sound other value found
  exact fold (fun _ => none) (fun _ _ found => (nomatch found)) term value known

theorem substituteUnits_kept {units : Units} {kind : Kind} {args : List Term}
    (unknown : units (.node kind args) = none)
    (each : ∀ arg ∈ args, substituteUnits units arg = arg) :
    substituteUnits units (.node kind args) = .node kind args := by
  have all : args.map (substituteUnits units) = args := (map_congr_left each).trans (map_id' args)
  by_cases not : ∃ arg, Term.node kind args = .node .not [arg]
  · obtain ⟨arg, same⟩ := not
    obtain ⟨rfl, rfl⟩ := Term.node.inj same
    rw [substituteUnits, unknown]
    exact if_pos (each arg mem_cons_self)
  by_cases and : kind = .and
  · subst and
    rw [substituteUnits, unknown, substituteAll_eq]
    exact if_pos all
  by_cases or : kind = .or
  · subst or
    rw [substituteUnits, unknown, substituteAll_eq]
    exact if_pos all
  refine substituteUnits_leaf unknown (fun arg same => not ⟨arg, same⟩) ?_ ?_
  · exact fun _ same => and (Term.node.inj same).1
  · exact fun _ same => or (Term.node.inj same).1

theorem mem_unitPropagation :
    (∀ term ∈ unitPropagation assertions, (term.eval I ν).holds) ↔ ∀ term ∈ assertions,
      ((substituteUnits (collectUnits assertions) term).eval I ν).holds := by
  unfold unitPropagation
  split
  · exact forall_mem_map
  · rename_i none
    -- No term has a truth value, so that replacing changes nothing.
    have nothing : ∀ term, collectUnits assertions term = Option.none := by
      intro term
      rw [← Option.not_isSome_iff_eq_none, collectUnits_isSome]
      intro atom
      refine none (any_eq_true.mpr ?_)
      rcases atom with mem | ⟨mem, name, sort, rfl⟩
      · exact ⟨_, mem, rfl⟩
      · exact ⟨_, mem, rfl⟩
    have kept (term : Term) : substituteUnits (collectUnits assertions) term = term := by
      induction term using Term.induct with
      | var name sort => exact substituteUnits_leaf (nothing _) (by simp) (by simp) (by simp)
      | bind binder scopes args _ =>
        exact substituteUnits_leaf (nothing _) (by simp) (by simp) (by simp)
      | node kind args ih => exact substituteUnits_kept (nothing _) ih
    simp only [kept]

theorem substituteUnits_absent
    (atoms : ∀ term, UnitAtom assertions term → ∃ name, term = .var name .bool)
    (absent : ∀ name sort, UnitAtom assertions (.var name sort) → (name, sort) ∉ term.freeVars) :
    substituteUnits (collectUnits assertions) term = term := by
  have unknown {other : Term} (differs : ∀ name, other ≠ .var name .bool) :
      collectUnits assertions other = none := by
    rw [← Option.not_isSome_iff_eq_none, collectUnits_isSome]
    intro atom
    obtain ⟨name, rfl⟩ := atoms other atom
    exact differs name rfl
  induction term using Term.induct with
  | var name sort =>
    refine substituteUnits_leaf ?_ (by simp) (by simp) (by simp)
    rw [← Option.not_isSome_iff_eq_none, collectUnits_isSome]
    exact fun atom => absent name sort atom (by simp)
  | bind binder scopes args _ =>
    exact substituteUnits_leaf (unknown (by simp)) (by simp) (by simp) (by simp)
  | node kind args ih =>
    have each : ∀ arg ∈ args, substituteUnits (collectUnits assertions) arg = arg :=
      fun arg mem => ih arg mem fun name sort atom free =>
        absent name sort atom (Term.mem_freeVars_node.mpr ⟨arg, mem, free⟩)
    exact substituteUnits_kept (unknown (by simp)) each

def withUnits (units : Units) {I : Interp} (ν : I.Assignment) : I.Assignment := fun x =>
  match units (.var x.1 x.2) with
  | some value => .bool (value = true)
  | none => ν x

theorem withUnits_respects
    (atoms : ∀ term, UnitAtom assertions term → ∃ name, term = .var name .bool)
    (respects : I.Respects ν) :
    I.Respects (withUnits (collectUnits assertions) ν) := by
  intro x
  unfold withUnits
  split
  · rename_i known
    have atom := (collectUnits_isSome _ _).mp (Option.isSome_iff_exists.mpr ⟨_, known⟩)
    obtain ⟨name, same⟩ := atoms _ atom
    rw [(Term.var.inj same).2]
    exact ⟨_, rfl⟩
  · exact respects x

theorem Visible.agrees (atoms : ∀ term, UnitAtom assertions term → ∃ name, term = .var name .bool)
    (ν : I.Assignment) (visible : Visible assertions term) (formula : term.IsFormula) :
    Agrees (collectUnits assertions) (withUnits (collectUnits assertions) ν) ν term := by
  have unknown {other : Term} (differs : ∀ name, other ≠ .var name .bool) :
      collectUnits assertions other = none := by
    rw [← Option.not_isSome_iff_eq_none, collectUnits_isSome]
    intro atom
    obtain ⟨name, rfl⟩ := atoms other atom
    exact differs name rfl
  induction visible with
  | @unit term atom =>
    obtain ⟨value, known⟩ := Option.isSome_iff_exists.mp ((collectUnits_isSome _ _).mpr atom)
    obtain ⟨name, rfl⟩ := atoms term atom
    refine .unit known ?_
    simp [withUnits, known]
  | @not arg inner ih =>
    obtain ⟨_, single, formula⟩ := isFormula_not.mp formula
    obtain ⟨rfl, -⟩ := cons.inj single
    exact .not (unknown (by simp)) (ih formula)
  | and inner ih =>
    exact .and (unknown (by simp)) fun arg mem => ih arg mem (isFormula_and.mp formula arg mem)
  | or inner ih =>
    exact .or (unknown (by simp)) fun arg mem => ih arg mem (isFormula_or.mp formula arg mem)
  | @leaf term absent =>
    have none : collectUnits assertions term = none := by
      rw [← Option.not_isSome_iff_eq_none, collectUnits_isSome]
      intro atom
      obtain ⟨name, rfl⟩ := atoms term atom
      exact absent name .bool atom (by simp)
    refine .leaf none (substituteUnits_absent atoms absent) ?_
    -- The free variables of the term have kept their values.
    have same : term.eval I (withUnits (collectUnits assertions) ν) = term.eval I ν := by
      refine Interp.eval_dependsOn formula.1 _ _ fun x free => ?_
      unfold withUnits
      split
      · rename_i known
        have atom := (collectUnits_isSome _ _).mp (Option.isSome_iff_exists.mpr ⟨_, known⟩)
        exact absurd free (absent x.1 x.2 atom)
      · rfl
    rw [same]

theorem unitPropagation_holds (each : ∀ term ∈ assertions, term.IsFormula) (lawful : I.Lawful)
    (respects : I.Respects ν) (model : ∀ term ∈ assertions, (term.eval I ν).holds) :
    ∀ term ∈ unitPropagation assertions, (term.eval I ν).holds := by
  rw [mem_unitPropagation]
  intro term mem
  have agrees : Agrees (collectUnits assertions) ν ν term :=
    agrees_self (fun _ _ known => collectUnits_holds model known) term
  exact (agrees.substitute lawful respects (each term mem)).2.mpr (model term mem)

theorem unitPropagation_satisfiable (each : ∀ term ∈ assertions, term.IsFormula)
    (visible : UnitsVisible assertions) :
    Satisfiable (unitPropagation assertions) ↔ Satisfiable assertions := by
  constructor
  · rintro ⟨I, lawful, ν, respects, model⟩
    refine ⟨I, lawful, withUnits (collectUnits assertions) ν,
      withUnits_respects visible.atoms respects, fun term mem => ?_⟩
    have agrees := (visible.visible term mem).agrees visible.atoms ν (each term mem)
    rw [mem_unitPropagation] at model
    exact (agrees.substitute lawful respects (each term mem)).2.mp (model term mem)
  · rintro ⟨I, lawful, ν, respects, model⟩
    exact ⟨I, lawful, ν, respects, unitPropagation_holds each lawful respects model⟩

/-- A call with enough fuel returns the term and the cache. -/
def Simplifies (before : InternOrder) (term : Term) (cache : Cache) (simplified : Term)
    (cache' : Cache) : Prop :=
  ∃ steps, ∀ fuel, steps ≤ fuel → simplify before fuel term cache = some (simplified, cache')

/-- The states of the cache: it starts empty, and terms are simplified. -/
inductive Reachable (before : InternOrder) : Cache → Prop
  | new : Reachable before fun _ => none
  | simplify {cache cache' : Cache} {term simplified : Term} (reachable : Reachable before cache)
      (returns : Simplifies before term cache simplified cache') : Reachable before cache'

theorem Reachable.sound {before : InternOrder} {cache : Cache}
    (reachable : Reachable before cache) : cache.Sound := by
  induction reachable with
  | new => exact ⟨fun _ _ found => (nomatch found), fun _ _ found => (nomatch found)⟩
  | simplify _ returns sound =>
    obtain ⟨steps, run⟩ := returns
    obtain ⟨_, _, steps', run', -, sound'⟩ := simplify_spec before _ sound
    -- Both runs are one run with as much fuel as either needs.
    have same := (run (max steps steps') (by omega)).symm.trans (run' (max steps steps') (by omega))
    obtain ⟨-, rfl⟩ := Prod.mk.inj (Option.some.inj same)
    exact sound'

/--
Terms and contradictions are handled well in every state of the cache.

Propagation keeps satisfiability if the unit atoms are Boolean variables that are visible.
-/
theorem simplifier_correct (before : InternOrder) {cache : Cache}
    (reachable : Reachable before cache) :
    (∀ term, ∃ simplified cache', Simplifies before term cache simplified cache' ∧
      StandsFor simplified term) ∧
    ∀ assertions : List Term, (∀ term ∈ assertions, term.IsFormula) →
      (∃ (simplified : List Term) (foundFalse : Bool) (cache' : Cache) (steps : Nat),
        (∀ fuel, steps ≤ fuel → simplifyAssertions before fuel assertions cache =
          some ((simplified, foundFalse), cache')) ∧
        (foundFalse = true → ¬Satisfiable assertions)) ∧
      (Satisfiable assertions → Satisfiable (unitPropagation assertions)) ∧
      (UnitsVisible assertions →
        (Satisfiable (unitPropagation assertions) ↔ Satisfiable assertions)) := by
  refine ⟨fun term => ?_, fun assertions each => ⟨?_, ?_, unitPropagation_satisfiable each⟩⟩
  · obtain ⟨simplified, cache', steps, run, stands, -⟩ := simplify_spec before term reachable.sound
    exact ⟨simplified, cache', ⟨steps, run⟩, stands⟩
  · obtain ⟨simplified, foundFalse, cache', steps, run, -, contradiction⟩ :=
      simplifyAssertions_spec before each reachable.sound
    exact ⟨simplified, foundFalse, cache', steps, run, contradiction⟩
  · rintro ⟨I, lawful, ν, respects, model⟩
    exact ⟨I, lawful, ν, respects, unitPropagation_holds each lawful respects model⟩

/-- A variable, and the implication of falsity by it. -/
def lostUnit : List Term := [.var "p" .bool, .node .implies [.var "p" .bool, mkFalse]]

theorem lostUnit_isFormula : ∀ term ∈ lostUnit, term.IsFormula := by
  have var : (Term.var "p" .bool).IsFormula := ⟨.var _ _, rfl⟩
  intro term mem
  simp only [lostUnit, mem_cons, not_mem_nil, or_false] at mem
  rcases mem with rfl | rfl
  · exact var
  · exact isFormula_implies.mpr ⟨var, isFormula_false⟩

theorem lostUnit_propagated :
    unitPropagation lostUnit = [mkTrue, .node .implies [.var "p" .bool, mkFalse]] := by
  decide

/-- What is left has a model, and the assertions have none. -/
theorem lostUnit_not_equisatisfiable :
    ¬(Satisfiable (unitPropagation lostUnit) ↔ Satisfiable lostUnit) := by
  intro same
  have left : Satisfiable (unitPropagation lostUnit) := by
    refine ⟨Interp.trees, Interp.trees_lawful, Interp.treeAssignment,
      Interp.treeAssignment_respects, ?_⟩
    rw [lostUnit_propagated]
    refine forall_mem_cons.mpr ⟨holds_true.mpr trivial, forall_mem_singleton.mpr ?_⟩
    -- The variable is false in this model.
    rw [holds_implies, Term.eval_var]
    exact fun holds => False.elim holds
  obtain ⟨I, -, ν, -, model⟩ := same.mp left
  have first := model (.var "p" .bool) (by simp [lostUnit])
  have second := model (.node .implies [.var "p" .bool, mkFalse]) (by simp [lostUnit])
  exact holds_false.mp ((holds_implies _ _).mp second first)

/-- A variable and a disjunction in which it is visible. -/
def keptUnit : List Term :=
  [.var "p" .bool, .node .or [.node .not [.var "p" .bool], .var "q" .bool]]

theorem simplifier_correct_keptUnit :
    Satisfiable (unitPropagation keptUnit) ↔ Satisfiable keptUnit := by
  have formulas : ∀ term ∈ keptUnit, term.IsFormula := by
    have var (name : Name) : (Term.var name .bool).IsFormula := ⟨.var _ _, rfl⟩
    simp [keptUnit, var]
  have atoms (term : Term) (atom : UnitAtom keptUnit term) : term = .var "p" .bool := by
    rcases atom with member | ⟨member, name, sort, rfl⟩
    · simp [keptUnit] at member
    · simpa [keptUnit] using member
  refine ((simplifier_correct (fun _ _ => true) .new).2 keptUnit formulas).2.2
    ⟨fun term atom => ⟨_, atoms term atom⟩, fun term member => ?_⟩
  have unit : Visible keptUnit (.var "p" .bool) :=
    .unit (.inr ⟨mem_cons_self, _, _, rfl⟩)
  simp only [keptUnit, mem_cons, not_mem_nil, or_false] at member
  rcases member with rfl | rfl
  · exact unit
  · refine .or (forall_mem_cons.mpr ⟨.not unit, forall_mem_singleton.mpr (.leaf ?_)⟩)
    intro name sort atom
    rw [atoms _ atom |> Term.var.inj |>.1]
    simp

end Nixie.Ast.Simplifier
