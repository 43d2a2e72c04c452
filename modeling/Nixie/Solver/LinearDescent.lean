import Nixie.Solver.LinearTerms

/-! The walk over the stack is a descent into the term, with every operation performed exactly. -/

namespace Nixie.Linear

mutual

def descend : ArithTerm → ℚ → Level → Traced Step Level
  | .intConst n, sc, cur => if inI64 n then cur.addProduct .exact sc n else .giveUp
  | .realConst r, sc, cur => cur.addProduct .exact sc r.value
  | .bitVecConst n, sc, cur => if inI64 n then cur.addProduct .exact sc n else .giveUp
  | .var id, sc, cur => pure (cur.push id sc)
  | .apply id numeric, sc, cur => if numeric then pure (cur.push id sc) else .giveUp
  | .select id numeric, sc, cur => if numeric then pure (cur.push id sc) else .giveUp
  | .dtSelector id numeric, sc, cur => if numeric then pure (cur.push id sc) else .giveUp
  | .ite id numeric, sc, cur => if numeric then pure (cur.push id sc) else .giveUp
  | .mod id isInt, sc, cur => if isInt then pure (cur.push id sc) else .giveUp
  | .div id isInt, sc, cur => if isInt then pure (cur.push id sc) else .giveUp
  | .add args, sc, cur => descendAll args sc cur
  | .sub lhs rhs, sc, cur => do
    let n ← Ops.exact.step (.neg sc)
    let cur ← descend lhs sc cur
    descend rhs n cur
  | .neg arg, sc, cur => do
    let n ← Ops.exact.step (.neg sc)
    descend arg n cur
  | .mul args, sc, cur => do
    let (constProduct, nonConst) ← factors args 1 none
    Level.finish .exact sc constProduct nonConst cur
  | .other _, _, _ => .giveUp

def descendAll : List ArithTerm → ℚ → Level → Traced Step Level
  | [], _, cur => pure cur
  | term :: rest, sc, cur => do
    let cur ← descend term sc cur
    descendAll rest sc cur

def factors : List ArithTerm → ℚ → Option Level → Traced Step (ℚ × Option Level)
  | [], constProduct, nonConst => pure (constProduct, nonConst)
  | term :: rest, constProduct, nonConst => do
    let level ← descend term 1 .new
    let (constProduct, nonConst) ← level.classify .exact constProduct nonConst
    factors rest constProduct nonConst

end

def resume (frame : MulFrame) (cur : Level) : Traced Step Level := do
  let (constProduct, nonConst) ← frame.classify .exact cur
  let (constProduct, nonConst) ← factors (frame.args.drop frame.next) constProduct nonConst
  Level.finish .exact frame.scale constProduct nonConst frame.parent

def descendWork : List Work → Level → Traced Step Level
  | [], cur => pure cur
  | .visit term sc :: work, cur => do
    let cur ← descend term sc cur
    descendWork work cur
  | .mul frame :: work, cur => do
    let cur ← resume frame cur
    descendWork work cur

theorem descendWork_map (args : List ArithTerm) (sc : ℚ) (work : List Work) (cur : Level) :
    descendWork (args.map (.visit · sc) ++ work) cur =
      descendAll args sc cur >>= descendWork work := by
  induction args generalizing cur with
  | nil => rfl
  | cons term rest ih =>
    rw [List.map_cons, List.cons_append, descendWork, descendAll, Traced.bind_assoc]
    simp only [ih]

/-- Every result of an operation on machine words is the exact one. -/
def Sound (compute : Step → Option ℚ) : Prop := ∀ s r, compute s = some r → r = s.value

section

variable {compute : Step → Option ℚ}

def fits (compute : Step → Option ℚ) (s : Step) : Bool := (compute s).isSome

theorem perform_exact_step (sound : Sound compute) (s : Step) :
    perform (fits compute) (Ops.exact.step s) = (Ops.checked compute).step s := by
  show perform (fits compute) (Traced.step Step.value s) = _
  rw [perform_step, fits]
  unfold Ops.checked
  dsimp only
  cases found : compute s with
  | none => rfl
  | some r =>
    rw [sound s r found]
    rfl

theorem perform_addConstant (sound : Sound compute) (cur : Level) (n : ℚ) :
    perform (fits compute) (cur.addConstant .exact n) = cur.addConstant (.checked compute) n := by
  simp only [Level.addConstant, perform_bind, perform_exact_step sound, perform_pure]
  rfl

theorem perform_addProduct (sound : Sound compute) (cur : Level) (a b : ℚ) :
    perform (fits compute) (cur.addProduct .exact a b) = cur.addProduct (.checked compute) a b := by
  simp only [Level.addProduct, perform_bind, perform_exact_step sound, perform_addConstant sound]

theorem perform_pushScaled (sound : Sound compute) (c : ℚ) (terms : List (Nat × ℚ))
    (cur : Level) : perform (fits compute) (Level.pushScaled .exact c terms cur) =
      Level.pushScaled (.checked compute) c terms cur := by
  induction terms generalizing cur with
  | nil => rfl
  | cons term rest ih =>
    simp only [Level.pushScaled, perform_bind, perform_exact_step sound, ih]

theorem perform_classify (sound : Sound compute) (cur : Level) (constProduct : ℚ)
    (nonConst : Option Level) :
    perform (fits compute) (cur.classify .exact constProduct nonConst) =
      cur.classify (.checked compute) constProduct nonConst := by
  unfold Level.classify
  split
  · simp only [perform_bind, perform_exact_step sound, perform_pure]
    rfl
  · split
    · rfl
    · rfl

theorem perform_finish (sound : Sound compute) (scale constProduct : ℚ) (nonConst : Option Level)
    (parent : Level) :
    perform (fits compute) (Level.finish .exact scale constProduct nonConst parent) =
      Level.finish (.checked compute) scale constProduct nonConst parent := by
  unfold Level.finish
  cases nonConst with
  | none => simp only [perform_bind, perform_exact_step sound, perform_addConstant sound]
  | some level =>
    simp only [perform_bind, perform_exact_step sound, perform_pushScaled sound,
      perform_addProduct sound]

theorem perform_frame_classify (sound : Sound compute) (frame : MulFrame) (cur : Level) :
    perform (fits compute) (frame.classify .exact cur) = frame.classify (.checked compute) cur := by
  unfold MulFrame.classify
  split
  · exact perform_classify sound cur _ _
  · rfl

def restOf (compute : Step → Option ℚ) (next : List Work × Level) : Except Stop Level :=
  perform (fits compute) (descendWork next.1 next.2)

theorem visit_spec (sound : Sound compute) (term : ArithTerm) (sc : ℚ) (cur : Level)
    (work : List Work) : perform (fits compute) (descendWork (.visit term sc :: work) cur) =
      visit compute term sc cur work >>= restOf compute := by
  -- A constant is added, and an opaque term is pushed where it is read.
  have constant : ∀ n : ℚ, perform (fits compute) (cur.addProduct .exact sc n >>= descendWork work) =
      (do return (work, ← cur.addProduct (.checked compute) sc n)) >>= restOf compute := by
    intro n
    rw [perform_bind, perform_addProduct sound]
    cases cur.addProduct (.checked compute) sc n <;> rfl
  have read : ∀ (id : Nat) (isRead : Bool), perform (fits compute)
      ((if isRead then pure (cur.push id sc) else .giveUp) >>= descendWork work) =
      (if isRead then pure (work, cur.push id sc) else (Ops.checked compute).reject) >>=
        restOf compute := by
    intro id isRead
    cases isRead <;> rfl
  cases term with
  | intConst n =>
    unfold visit
    simp only [descendWork, descend]
    split
    · exact constant n
    · rfl
  | realConst r => exact constant r.value
  | bitVecConst n =>
    unfold visit
    simp only [descendWork, descend]
    split
    · exact constant n
    · rfl
  | var id => rfl
  | apply id numeric => exact read id numeric
  | select id numeric => exact read id numeric
  | dtSelector id numeric => exact read id numeric
  | ite id numeric => exact read id numeric
  | mod id isInt => exact read id isInt
  | div id isInt => exact read id isInt
  | add args =>
    -- All operands are visited at the same scale.
    show perform (fits compute) (descendAll args sc cur >>= descendWork work) =
      perform (fits compute) (descendWork (args.map (.visit · sc) ++ work) cur)
    rw [descendWork_map]
  | sub lhs rhs =>
    show perform (fits compute) ((Ops.exact.step (.neg sc) >>= fun n =>
      descend lhs sc cur >>= fun cur => descend rhs n cur) >>= descendWork work) = _
    rw [Traced.bind_assoc, perform_bind, perform_exact_step sound, visit]
    -- Both sides follow, the left one first.
    cases (Ops.checked compute).step (.neg sc) with
    | error stop => rfl
    | ok n =>
      show perform (fits compute) ((descend lhs sc cur >>= fun cur => descend rhs n cur) >>=
        descendWork work) = _
      rw [Traced.bind_assoc]
      rfl
  | neg arg =>
    show perform (fits compute) ((Ops.exact.step (.neg sc) >>= fun n =>
      descend arg n cur) >>= descendWork work) = _
    rw [Traced.bind_assoc, perform_bind, perform_exact_step sound, visit]
    cases (Ops.checked compute).step (.neg sc) <;> rfl
  | mul args => rfl
  | other id => rfl

theorem mulStep_spec (sound : Sound compute) (frame : MulFrame) (cur : Level) (work : List Work) :
    perform (fits compute) (descendWork (.mul frame :: work) cur) =
      mulStep compute frame cur work >>= restOf compute := by
  show perform (fits compute) ((frame.classify .exact cur >>= fun factor =>
    factors (frame.args.drop frame.next) factor.1 factor.2 >>= fun factor =>
      Level.finish .exact frame.scale factor.1 factor.2 frame.parent) >>= descendWork work) = _
  rw [Traced.bind_assoc, perform_bind, perform_frame_classify sound, mulStep]
  -- The factor in the current level is classified first.
  cases frame.classify (.checked compute) cur with
  | error stop => rfl
  | ok factor =>
    obtain ⟨constProduct, nonConst⟩ := factor
    show perform (fits compute) ((factors (frame.args.drop frame.next) constProduct nonConst >>=
      fun factor => Level.finish .exact frame.scale factor.1 factor.2 frame.parent) >>=
        descendWork work) = _
    cases found : frame.args[frame.next]? with
    | some arg =>
      -- The next factor is visited, and classified when it is done.
      obtain ⟨within, rfl⟩ := List.getElem?_eq_some_iff.mp found
      rw [List.drop_eq_getElem_cons within]
      show _ = perform (fits compute) (descendWork (.visit frame.args[frame.next] 1 ::
        .mul { frame with next := frame.next + 1, constProduct, nonConst } :: work) .new)
      simp only [factors, descendWork, resume, MulFrame.classify, Nat.succ_pos, gt_iff_lt, if_true,
        Traced.bind_assoc]
    | none =>
      -- Without a next factor the product is contributed to its parent.
      rw [List.drop_eq_nil_of_le (List.getElem?_eq_none_iff.mp found)]
      show perform (fits compute) (Level.finish .exact frame.scale constProduct nonConst
        frame.parent >>= descendWork work) = _
      rw [perform_bind, perform_finish sound]
      show _ = (do return (work, ← Level.finish (.checked compute) frame.scale constProduct nonConst
        frame.parent) : Except Stop (List Work × Level)) >>= restOf compute
      cases (Level.finish (.checked compute) frame.scale constProduct nonConst frame.parent :
        Except Stop Level) <;> rfl

def roundsLeft : List Work → Nat
  | [] => 0
  | .visit term _ :: work => rounds term + roundsLeft work
  | .mul frame :: work =>
    1 + roundsAll (frame.args.drop frame.next) + (frame.args.length - frame.next) + roundsLeft work

theorem roundsLeft_map (args : List ArithTerm) (sc : ℚ) (work : List Work) :
    roundsLeft (args.map (.visit · sc) ++ work) = roundsAll args + roundsLeft work := by
  induction args with
  | nil => rw [List.map_nil, List.nil_append, roundsAll, Nat.zero_add]
  | cons term rest ih =>
    rw [List.map_cons, List.cons_append, roundsLeft, ih, roundsAll, Nat.add_assoc]

theorem rounds_pos (term : ArithTerm) : 0 < rounds term := by
  cases term <;> simp only [rounds] <;> omega

theorem return_ok {x : Except Stop Level} {work work' : List Work} {cur' : Level}
    (next : (do return (work, ← x) : Except Stop (List Work × Level)) = .ok (work', cur')) :
    work' = work := by
  cases x with
  | error stop => cases next
  | ok cur => exact (Prod.mk.inj (Except.ok.inj next)).1.symm

theorem visit_rounds {term : ArithTerm} {sc : ℚ} {cur cur' : Level} {work work' : List Work}
    (next : visit compute term sc cur work = .ok (work', cur')) :
    roundsLeft work' + 1 = rounds term + roundsLeft work := by
  -- A term that is folded at once pushes no work.
  have folded : ∀ {term : ArithTerm}, rounds term = 1 → work' = work →
      roundsLeft work' + 1 = rounds term + roundsLeft work := by
    rintro term one rfl
    omega
  have read : ∀ {isRead : Bool} {id : Nat}, (if isRead then pure (work, cur.push id sc)
      else (Ops.checked compute).reject : Except Stop (List Work × Level)) = .ok (work', cur') →
      work' = work := by
    intro isRead id next
    cases isRead with
    | false => cases next
    | true => exact (Prod.mk.inj (Except.ok.inj next)).1.symm
  cases term with
  | intConst n =>
    unfold visit at next
    dsimp only at next
    split at next
    · exact folded rfl (return_ok next)
    · cases next
  | realConst r => exact folded rfl (return_ok next)
  | bitVecConst n =>
    unfold visit at next
    dsimp only at next
    split at next
    · exact folded rfl (return_ok next)
    · cases next
  | var id => exact folded rfl (Prod.mk.inj (Except.ok.inj next)).1.symm
  | apply id numeric => exact folded rfl (read next)
  | select id numeric => exact folded rfl (read next)
  | dtSelector id numeric => exact folded rfl (read next)
  | ite id numeric => exact folded rfl (read next)
  | mod id isInt => exact folded rfl (read next)
  | div id isInt => exact folded rfl (read next)
  | add args =>
    obtain ⟨rfl, -⟩ := Prod.mk.inj (Except.ok.inj next)
    rw [roundsLeft_map, rounds]
    omega
  | sub lhs rhs =>
    unfold visit at next
    dsimp only at next
    cases negated : (Ops.checked compute).step (.neg sc) with
    | error stop =>
      rw [negated] at next
      cases next
    | ok n =>
      rw [negated] at next
      obtain ⟨rfl, -⟩ := Prod.mk.inj (Except.ok.inj next)
      rw [roundsLeft, roundsLeft, rounds]
      omega
  | neg arg =>
    unfold visit at next
    dsimp only at next
    cases negated : (Ops.checked compute).step (.neg sc) with
    | error stop =>
      rw [negated] at next
      cases next
    | ok n =>
      rw [negated] at next
      obtain ⟨rfl, -⟩ := Prod.mk.inj (Except.ok.inj next)
      rw [roundsLeft, rounds]
      omega
  | mul args =>
    obtain ⟨rfl, -⟩ := Prod.mk.inj (Except.ok.inj next)
    rw [roundsLeft, rounds]
    show 1 + roundsAll args + (args.length - 0) + roundsLeft work + 1 = _
    omega
  | other id => cases next

theorem mulStep_rounds {frame : MulFrame} {cur cur' : Level} {work work' : List Work}
    (next : mulStep compute frame cur work = .ok (work', cur')) :
    roundsLeft work' + 1 ≤ roundsLeft (.mul frame :: work) := by
  unfold mulStep at next
  dsimp only at next
  cases classified : frame.classify (.checked compute) cur with
  | error stop =>
    rw [classified] at next
    cases next
  | ok factor =>
    rw [classified] at next
    cases found : frame.args[frame.next]? with
    | some arg =>
      obtain ⟨within, rfl⟩ := List.getElem?_eq_some_iff.mp found
      rw [found] at next
      obtain ⟨rfl, -⟩ := Prod.mk.inj (Except.ok.inj next)
      rw [roundsLeft, roundsLeft, roundsLeft, List.drop_eq_getElem_cons within, roundsAll]
      dsimp only
      omega
    | none =>
      rw [found] at next
      rw [return_ok next, roundsLeft]
      omega

theorem run_eq (sound : Sound compute) {fuel : Nat} {work : List Work} (cur : Level)
    (enough : roundsLeft work ≤ fuel) :
    run compute fuel work cur = perform (fits compute) (descendWork work cur) := by
  -- The induction is on the rounds.
  induction fuel generalizing work cur with
  | zero =>
    cases work with
    | nil => rfl
    | cons item work =>
      cases item with
      | visit term sc =>
        have := rounds_pos term
        rw [roundsLeft] at enough
        omega
      | mul frame =>
        rw [roundsLeft] at enough
        omega
  | succ fuel ih =>
    cases work with
    | nil => rfl
    | cons item work =>
      cases item with
      | visit term sc =>
        rw [visit_spec sound, run]
        cases next : visit compute term sc cur work with
        | error stop => rfl
        | ok result =>
          rw [roundsLeft] at enough
          have := visit_rounds next
          exact ih result.2 (by omega)
      | mul frame =>
        rw [mulStep_spec sound, run]
        cases next : mulStep compute frame cur work with
        | error stop => rfl
        | ok result =>
          have := mulStep_rounds next
          exact ih result.2 (by omega)

theorem extractLinearTerms_eq (sound : Sound compute) (term : ArithTerm) (scale : ℚ) :
    extractLinearTerms compute term scale = perform (fits compute) (descend term scale .new) := by
  rw [extractLinearTerms, run_eq sound .new (by rw [roundsLeft, roundsLeft]; omega), descendWork]
  show perform (fits compute) (descend term scale .new >>= pure) = _
  rw [Traced.bind_pure]

theorem perform_addTerm (sound : Sound compute) (id : Nat) (coef : ℚ)
    (combined : List (Nat × ℚ)) : perform (fits compute) (addTerm .exact id coef combined) =
      addTerm (.checked compute) id coef combined := by
  induction combined with
  | nil =>
    simp only [addTerm, perform_bind, perform_exact_step sound, perform_pure]
    rfl
  | cons first rest ih =>
    unfold addTerm
    split
    · simp only [perform_bind, perform_exact_step sound, perform_pure]
      rfl
    · simp only [perform_bind, ih, perform_pure]
      rfl

theorem perform_combine (sound : Sound compute) (terms combined : List (Nat × ℚ)) :
    perform (fits compute) (combine .exact terms combined) =
      combine (.checked compute) terms combined := by
  induction terms generalizing combined with
  | nil => rfl
  | cons term rest ih => simp only [combine, perform_bind, perform_addTerm sound, ih]

def comparison (lhs rhs : ArithTerm) (constraintType : ArithConstraintType) (reason : Nat) :
    Traced Step ParsedArithConstraint :=
  compareSides .exact (fun term scale => descend term scale .new) lhs rhs constraintType reason

theorem compareSides_eq (sound : Sound compute) (lhs rhs : ArithTerm)
    (constraintType : ArithConstraintType) (reason : Nat) :
    compareSides (.checked compute) (extractLinearTerms compute) lhs rhs constraintType reason =
      perform (fits compute) (comparison lhs rhs constraintType reason) := by
  simp only [comparison, compareSides, perform_bind, perform_exact_step sound,
    perform_combine sound, extractLinearTerms_eq sound, perform_pure]
  rfl

end

end Nixie.Linear
