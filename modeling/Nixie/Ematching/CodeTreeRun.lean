import Mathlib.Data.List.Induction
import Nixie.Ematching.CodeTreeLayout

/-! What the interpreter computes on a compiled pattern, as matching of terms. -/

namespace Nixie.Ast.Ematching

open List Option

/-- The terms bound so far, by the indices of the variables. -/
abbrev Bindings := List (Option Term)

section

variable (remaining : Nat → Remaining)

/-- The bindings after an instruction that looks at one term, if the term passes. -/
def accept : InstructionKind → Term → Bindings → Option Bindings
  | .compare expected, t, b =>
    if TermKindDiscriminant.fromTerm remaining t = expected then some b else none
  | .bind varIdx sort, t, b =>
    if t.sort ≠ sort then none
    else match b[varIdx]? with
      | none => none
      | some (some existing) => if existing ≠ t then none else some b
      | some none => some (b.set varIdx (some t))
  | .check property, t, b => if property.passes t then some b else none
  | .checkFunction funcName arity, t, b => if appliesFunction funcName arity t then some b else none
  | .matchAny, _, b => some b
  | _, _, _ => none

/-- Instructions that look at one term, with an index in range. -/
def Looks (numVars : Nat) : InstructionKind → Prop
  | .bind varIdx _ => varIdx < numVars
  | .compare _ | .check _ | .checkFunction _ _ | .matchAny => True
  | _ => False

def acceptAll : List InstructionKind → Term → Bindings → Option Bindings
  | [], _, b => some b
  | kind :: rest, t, b => (accept remaining kind t b).bind (acceptAll rest t)

/-- The bindings after the heads of arguments are matched with the arguments of a term. -/
def matchArgs (varMap : VarMap) (childIdx : Nat) : List Term → Term → Bindings → Option Bindings
  | [], _, b => some b
  | arg :: rest, t, b => (childAt t childIdx).bind fun child =>
    (accept remaining (headKind remaining varMap arg) child b).bind fun b =>
      matchArgs varMap (childIdx + 1) rest t b

def matchPattern (pattern : Pattern) (t : Term) : Option (List Term) :=
  let (varMap, numVars) := buildVarMap pattern.vars
  (acceptAll remaining (headKind remaining varMap pattern.root :: arityCheck pattern.root) t
    (List.replicate numVars none)).bind fun b =>
      (matchArgs remaining varMap 0 (operands pattern.root) t b).bind (List.mapM id)

variable {remaining}

theorem accept_cases {kind : InstructionKind} {t : Term} {b b' : Bindings}
    (accepted : accept remaining kind t b = some b') :
    (b' = b ∧ ∀ i sort, kind = .bind i sort → b[i]? = some (some t)) ∨
      ∃ i sort, kind = .bind i sort ∧ b[i]? = some none ∧ b' = b.set i (some t) := by
  cases kind with
  | bind varIdx sort =>
    simp only [accept] at accepted
    split at accepted
    · exact absurd accepted (by simp)
    · cases entry : b[varIdx]? with
      | none => exact absurd (entry ▸ accepted) (by simp)
      | some slot =>
        rw [entry] at accepted
        cases slot with
        | none => exact .inr ⟨varIdx, sort, rfl, entry, (some.inj accepted).symm⟩
        | some existing =>
          by_cases differ : existing ≠ t
          · simp [differ] at accepted
          · obtain rfl := not_not.mp differ
            simp only [ne_eq, not_true_eq_false, if_false, some.injEq] at accepted
            refine .inl ⟨accepted.symm, fun i sort' same => ?_⟩
            cases same
            exact entry
  | compare | check | checkFunction =>
    simp only [accept] at accepted
    split at accepted
    · exact .inl ⟨(some.inj accepted).symm, fun _ _ same => absurd same (by simp)⟩
    · exact absurd accepted (by simp)
  | matchAny => exact .inl ⟨(some.inj accepted).symm, fun _ _ same => absurd same (by simp)⟩
  | _ => exact absurd accepted (by simp [accept])

theorem accept_length {kind : InstructionKind} {t : Term} {b b' : Bindings}
    (accepted : accept remaining kind t b = some b') : b'.length = b.length := by
  rcases accept_cases accepted with ⟨rfl, -⟩ | ⟨i, sort, -, -, rfl⟩
  · rfl
  · exact length_set

end

section

variable {remaining : Nat → Remaining} {tree : CodeTree}

/-- A run without alternatives ends with a result, given enough fuel. -/
def Ends (remaining : Nat → Remaining) (tree : CodeTree) (ip : Nat) (r : Registers)
    (result : Option (List Term)) : Prop :=
  ∃ steps, ∀ fuel, tree.run remaining (fuel + steps) ip r [] = some (.ok result)

theorem Ends.goto {ip next : Nat} {r r' : Registers} {instr : Instruction}
    {result : Option (List Term)} (found : tree.instructions[ip]? = some instr)
    (step : instr.execute remaining r = .ok (.goto next r'))
    (ends : Ends remaining tree next r' result) : Ends remaining tree ip r result := by
  obtain ⟨steps, ends⟩ := ends
  refine ⟨steps + 1, fun fuel => ?_⟩
  rw [← Nat.add_assoc, CodeTree.run, found]
  simp only [step, ends]

theorem Ends.fail {ip : Nat} {r : Registers} {instr : Instruction}
    (found : tree.instructions[ip]? = some instr)
    (step : instr.execute remaining r = .ok .fail) : Ends remaining tree ip r none := by
  refine ⟨1, fun fuel => ?_⟩
  rw [CodeTree.run, found]
  simp only [step]

theorem execute_looks {instr : Instruction} {r : Registers} {next : Nat}
    (looks : Looks r.bindings.length instr.kind) (linked : instr.next = some next) :
    instr.execute remaining r = match accept remaining instr.kind r.currentTerm r.bindings with
      | none => .ok .fail
      | some b => .ok (.goto next { r with bindings := b }) := by
  obtain ⟨kind, _, alt⟩ := instr
  cases linked
  cases kind with
  | compare expected =>
    simp only [Instruction.execute, accept, Instruction.proceed]
    split <;> rfl
  | check property =>
    simp only [Instruction.execute, accept, Instruction.proceed]
    split <;> rfl
  | checkFunction funcName arity =>
    simp only [Instruction.execute, accept, Instruction.proceed]
    split <;> rfl
  | matchAny => rfl
  | bind varIdx sort =>
    have lies : r.bindings[varIdx]? = some r.bindings[varIdx] := getElem?_eq_getElem looks
    simp only [Instruction.execute, accept, Instruction.proceed, lies]
    split
    · rfl
    · cases r.bindings[varIdx] with
      | none => rfl
      | some existing =>
        simp only
        split <;> rfl
  | _ => exact looks.elim

theorem ends_looks {kinds rest : List InstructionKind} {i last : Nat} {t : Term} {b : Bindings}
    {above : List Term} {result : Bindings → Option (List Term)}
    (chain : links.Chain tree.instructions i (kinds ++ rest) last) (more : rest ≠ [])
    (looks : ∀ kind ∈ kinds, Looks b.length kind)
    (later : ∀ j b', links.Chain tree.instructions j rest last → b'.length = b.length →
      Ends remaining tree j ⟨t, b', above⟩ (result b')) :
    Ends remaining tree i ⟨t, b, above⟩ ((acceptAll remaining kinds t b).bind result) := by
  induction kinds generalizing i b with
  | nil => exact later i b chain rfl
  | cons kind kinds ih =>
    obtain ⟨instr, j, found, same, linked, tail⟩ := chain.uncons (by simp [more])
    have same : instr.kind = kind := same
    subst same
    have step := @execute_looks remaining instr ⟨t, b, above⟩ j (looks _ mem_cons_self) linked
    rw [acceptAll]
    cases accepted : accept remaining instr.kind t b with
    | none =>
      simp only [accepted] at step
      exact Ends.fail found step
    | some b' =>
      have kept := accept_length accepted
      simp only [accepted] at step
      rw [bind_some]
      refine Ends.goto found step (ih tail ?_ ?_)
      · rw [kept]
        exact fun kind mem => looks kind (mem_cons_of_mem _ mem)
      · exact fun j b'' chain same => later j b'' chain (same.trans kept)

theorem headKind_looks {varMap : VarMap} {numVars : Nat}
    (inRange : ∀ name varIdx, varMap name = some varIdx → varIdx < numVars) (t : Term) :
    Looks numVars (headKind remaining varMap t) := by
  cases t with
  | var name sort =>
    rw [headKind]
    cases found : varMap name with
    | none => trivial
    | some varIdx => exact inRange name varIdx found
  | node kind args => cases kind <;> trivial
  | bind => trivial

theorem arityCheck_looks (numVars : Nat) (t : Term) :
    ∀ kind ∈ arityCheck t, Looks numVars kind := by
  intro kind mem
  unfold arityCheck at mem
  split at mem
  all_goals first
    | rw [mem_singleton.mp mem]; trivial
    | exact absurd mem not_mem_nil

theorem ends_yield {i last : Nat} {t : Term} {b : Bindings} {above : List Term}
    (chain : links.Chain tree.instructions i [.yield 0] last) :
    Ends remaining tree i ⟨t, b, above⟩ (b.mapM id) := by
  obtain ⟨instr, found, isYield⟩ : ∃ instr, tree.instructions[i]? = some instr ∧
      instr.kind = .yield 0 := by
    generalize kinds : ([.yield 0] : List InstructionKind) = labels at chain
    cases chain with
    | last found => exact ⟨_, found, (cons.inj kinds).1.symm⟩
    | link _ _ _ rest => exact absurd rest.length_pos (by rw [← (cons.inj kinds).2]; simp)
  refine ⟨1, fun fuel => ?_⟩
  rw [CodeTree.run, found]
  simp only [Instruction.execute, isYield]
  cases mapM id b <;> rfl

theorem ends_args {varMap : VarMap} {args : List Term} {i last childIdx : Nat} {t : Term}
    {b : Bindings} (inRange : ∀ name varIdx, varMap name = some varIdx → varIdx < b.length)
    (chain : links.Chain tree.instructions i
      (argKinds remaining varMap childIdx args ++ [.yield 0]) last) :
    Ends remaining tree i ⟨t, b, []⟩
      ((matchArgs remaining varMap childIdx args t b).bind (List.mapM id)) := by
  induction args generalizing i childIdx b with
  | nil => exact ends_yield chain
  | cons arg rest ih =>
    obtain ⟨instr, j, found, descends, linked, tail⟩ := chain.uncons (by simp)
    have descends : instr.kind = .descendChild childIdx := descends
    have linked : instr.next = some j := linked
    rw [matchArgs]
    cases child : childAt t childIdx with
    | none => exact Ends.fail found (by simp only [Instruction.execute, descends, child])
    | some child' =>
      have step : instr.execute remaining ⟨t, b, []⟩ = .ok (.goto j ⟨child', b, [t]⟩) := by
        simp only [Instruction.execute, descends, child, Instruction.proceed, linked]
      refine Ends.goto found step ?_
      -- The head of the argument looks at the child, and the next instruction goes back.
      have back : ∀ j b', links.Chain tree.instructions j
          (.ascend :: (argKinds remaining varMap (childIdx + 1) rest ++ [.yield 0])) last →
          b'.length = b.length → Ends remaining tree j ⟨child', b', [t]⟩
            ((matchArgs remaining varMap (childIdx + 1) rest t b').bind (mapM id)) := by
        intro j b' chain same
        obtain ⟨instr, j', found, ascends, linked, tail⟩ := chain.uncons (by simp)
        have ascends : instr.kind = .ascend := ascends
        have linked : instr.next = some j' := linked
        have step : instr.execute remaining ⟨child', b', [t]⟩ = .ok (.goto j' ⟨t, b', []⟩) := by
          simp only [Instruction.execute, ascends, linked]
        exact Ends.goto found step (ih (same.symm ▸ inRange) tail)
      have run : Ends remaining tree j ⟨child', b, [t]⟩
          ((acceptAll remaining [headKind remaining varMap arg] child' b).bind fun b' =>
            (matchArgs remaining varMap (childIdx + 1) rest t b').bind (mapM id)) :=
        ends_looks tail (by simp)
          (fun kind mem => mem_singleton.mp mem ▸ headKind_looks inRange arg) back
      simpa only [acceptAll, bind_assoc, bind_some] using run

end

theorem buildVarMap_spec (vars : List Var) (distinct : (vars.map Prod.fst).Nodup) :
    (buildVarMap vars).2 = vars.length ∧ ∀ name varIdx,
      (buildVarMap vars).1 name = some varIdx ↔ vars[varIdx]?.map Prod.fst = some name := by
  -- The last variable of a list gets the length of the list before it.
  induction vars using reverseRecOn with
  | nil => exact ⟨rfl, fun name varIdx => by simp [buildVarMap]⟩
  | append_singleton vars x ih =>
    rw [map_append, nodup_append] at distinct
    obtain ⟨before, -, apart⟩ := distinct
    obtain ⟨count, indices⟩ := ih before
    have new : (buildVarMap vars).1 x.1 = none := by
      rw [eq_none_iff_forall_ne_some]
      intro varIdx found
      obtain ⟨y, at_, same⟩ := map_eq_some_iff.mp ((indices _ _).mp found)
      exact apart y.1 (mem_map_of_mem (mem_of_getElem? at_)) x.1 (by simp) same
    have step : buildVarMap (vars ++ [x]) = (Function.update (buildVarMap vars).1 x.1
        (some vars.length), vars.length + 1) := by
      rw [buildVarMap, foldl_append]
      change addVariable (buildVarMap vars) x = _
      rw [addVariable, new, count]
    rw [step]
    refine ⟨by simp, fun name varIdx => ?_⟩
    rcases Nat.lt_trichotomy varIdx vars.length with below | rfl | above
    · rw [getElem?_append_left below, ← indices]
      by_cases same : name = x.1
      · subst same
        simp [new, Nat.ne_of_gt below]
      · simp [same]
    · by_cases same : name = x.1
      · simp [same]
      · have outside : (buildVarMap vars).1 name ≠ some vars.length := by
          simp [indices]
        simp [same, outside, Ne.symm same]
    · have outside : (buildVarMap vars).1 name ≠ some varIdx := by
        simp [indices, Nat.le_of_lt above]
      have beyond : (vars ++ [x])[varIdx]? = none := getElem?_eq_none (by simp; omega)
      by_cases same : name = x.1
      · simp [same, beyond, Nat.ne_of_lt above]
      · simp [same, beyond, outside]

theorem execute_compile {remaining : Nat → Remaining} {pattern : Pattern} {tree : CodeTree}
    (done : compile remaining pattern = .ok tree) (t : Term) :
    ∃ steps, ∀ fuel,
      tree.execute remaining (fuel + steps) t = some (.ok (matchPattern remaining pattern t)) := by
  obtain ⟨count, last, chain⟩ := compile_chain done
  obtain ⟨length, indices⟩ := buildVarMap_spec pattern.vars pattern.distinct
  have inRange : ∀ name varIdx, (buildVarMap pattern.vars).1 name = some varIdx →
      varIdx < (buildVarMap pattern.vars).2 := by
    intro name varIdx found
    obtain ⟨x, at_, -⟩ := map_eq_some_iff.mp ((indices name varIdx).mp found)
    rw [length]
    exact (List.getElem?_eq_some_iff.mp at_).1
  have checks : ∀ kind ∈ headKind remaining (buildVarMap pattern.vars).1 pattern.root ::
      arityCheck pattern.root,
      Looks (replicate (buildVarMap pattern.vars).2 (none : Option Term)).length kind := by
    rw [length_replicate]
    intro kind mem
    rcases mem_cons.mp mem with rfl | mem
    · exact headKind_looks inRange pattern.root
    · exact arityCheck_looks _ pattern.root kind mem
  rw [patternKinds, bodyKinds, ← cons_append, append_assoc] at chain
  obtain ⟨steps, ends⟩ := ends_looks chain (by simp) checks fun j b' chain same =>
    @ends_args remaining tree _ _ j last 0 t b'
      (by rw [same, length_replicate]; exact inRange) chain
  exact ⟨steps, fun fuel => by rw [CodeTree.execute, count, ends fuel]; rfl⟩

end Nixie.Ast.Ematching
