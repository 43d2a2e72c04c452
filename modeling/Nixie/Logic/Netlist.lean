import Nixie.Logic.Cnf

/-! Programs that take fresh variables and add clauses, and what they leave of the models. -/

namespace Nixie

open List Function

/-- The variables handed out and the clauses added so far. -/
structure Netlist where
  next : Nat
  clauses : Cnf
  deriving DecidableEq, Repr

/-- A program that takes fresh variables and adds clauses. -/
abbrev Build := StateM Netlist

namespace Netlist

def newVar : Build Nat := fun list => (list.next, { list with next := list.next + 1 })

def addClause (clause : Clause) : Build Unit :=
  fun list => ((), { list with clauses := list.clauses ++ [clause] })

/-- Two assignments give the variables below the bound the same values. -/
def AgreeBelow (bound : Nat) (m m' : Assignment) : Prop := ∀ var < bound, m' var = m var

@[refl] theorem AgreeBelow.refl {bound : Nat} (m : Assignment) : AgreeBelow bound m m :=
  fun _ _ => rfl

theorem AgreeBelow.trans {bound : Nat} {m m' m'' : Assignment} (first : AgreeBelow bound m m')
    (second : AgreeBelow bound m' m'') : AgreeBelow bound m m'' :=
  fun var within => (second var within).trans (first var within)

theorem AgreeBelow.mono {small large : Nat} {m m' : Assignment} (agree : AgreeBelow large m m')
    (le : small ≤ large) : AgreeBelow small m m' :=
  fun var within => agree var (Nat.lt_of_lt_of_le within le)

theorem AgreeBelow.update {bound var : Nat} (m : Assignment) (value : Bool) (le : bound ≤ var) :
    AgreeBelow bound m (update m var value) := by
  -- No variable below the bound is the one that changes.
  intro other within
  rw [update_of_ne (by omega)]

theorem AgreeBelow.models {bound : Nat} {formula : Cnf} {m m' : Assignment}
    (agree : AgreeBelow bound m m') (below : VarsBelow bound formula)
    (models : Models m formula) : Models m' formula := by
  intro clause mem
  -- The literal that held before is over a variable below the bound.
  obtain ⟨lit, lies, holds⟩ := models clause mem
  refine ⟨lit, lies, ?_⟩
  have same := agree lit.var (below clause mem lit lies)
  rwa [Lit.Holds, same]

/-- The value is read off the variables below the bound. -/
def Local {α : Sort*} (bound : Nat) (f : Assignment → α) : Prop :=
  ∀ ⦃m m'⦄, AgreeBelow bound m m' → f m' = f m

/--
A netlist together with the values that are wanted for its variables.

Only assignments that meet `known` are counted.
Where `aimed` holds, only those with the wanted values are.
Without it the models of the added clauses are counted, and with it those that they are meant to have.
-/
structure Stage (aimed : Prop) (known : Assignment → Prop) where
  list : Netlist
  before : Cnf
  added : Cnf
  split : list.clauses = before ++ added
  aim : Assignment → Prop
  /-- Added clauses use variables that were handed out. -/
  below : VarsBelow list.next added
  /-- Values are wanted for variables that were handed out. -/
  aimLocal : Local list.next aim
  /-- What is known is about variables that were handed out. -/
  knownLocal : Local list.next known

variable {aimed : Prop} {known : Assignment → Prop} {α β : Type}
  {s s' s'' : Stage aimed known} {m m' : Assignment}

def Stage.Live (s : Stage aimed known) (m : Assignment) : Prop :=
  known m ∧ Models m s.added ∧ (aimed → s.aim m)

/-- Every counted assignment has the property. -/
def Stage.Entails (s : Stage aimed known) (property : Assignment → Prop) : Prop :=
  ∀ m, s.Live m → property m

/-- Every assignment with the wanted values has the property. -/
def Stage.Aims (s : Stage aimed known) (property : Assignment → Prop) : Prop :=
  aimed → s.Entails property

theorem Stage.Live.transfer (live : s.Live m) (agree : AgreeBelow s.list.next m m') :
    s.Live m' := by
  -- Each of the three parts is about these variables.
  obtain ⟨fact, models, aim⟩ := live
  refine ⟨?_, agree.models s.below models, fun h => ?_⟩
  · rwa [s.knownLocal agree]
  · rw [s.aimLocal agree]
    exact aim h

/--
A later stage.

No assignment is counted anew, and one with the wanted values only loses what new variables hold.
-/
structure Extends (s s' : Stage aimed known) : Prop where
  next_le : s.list.next ≤ s'.list.next
  before_eq : s'.before = s.before
  narrows : ∀ m, s'.Live m → s.Live m
  widens : aimed → ∀ m, s.Live m → ∃ m', AgreeBelow s.list.next m m' ∧ s'.Live m'

@[refl] theorem Extends.refl (s : Stage aimed known) : Extends s s where
  next_le := Nat.le_refl _
  before_eq := rfl
  narrows := fun _ live => live
  widens := fun _ m live => ⟨m, .refl m, live⟩

theorem Extends.trans (first : Extends s s') (second : Extends s' s'') : Extends s s'' where
  next_le := Nat.le_trans first.next_le second.next_le
  before_eq := second.before_eq.trans first.before_eq
  narrows := fun m live => first.narrows m (second.narrows m live)
  widens := by
    -- The variables of the first part keep the values it gave them.
    intro h m live
    obtain ⟨m', agree, live'⟩ := first.widens h m live
    obtain ⟨m'', agree', live''⟩ := second.widens h m' live'
    exact ⟨m'', agree.trans (agree'.mono first.next_le), live''⟩

theorem Stage.Entails.later {property : Assignment → Prop} (holds : s.Entails property)
    (step : Extends s s') : s'.Entails property :=
  fun m live => holds m (step.narrows m live)

theorem Stage.Aims.later {property : Assignment → Prop} (aims : s.Aims property)
    (step : Extends s s') : s'.Aims property :=
  fun h => (aims h).later step

theorem Extends.lt {var : Nat} (step : Extends s s') (within : var < s.list.next) :
    var < s'.list.next :=
  Nat.lt_of_lt_of_le within step.next_le

/-- The program takes the stage to a later one that meets the condition with the returned value. -/
def Builds (s : Stage aimed known) (p : Build α) (post : α → Stage aimed known → Prop) : Prop :=
  ∃ s' : Stage aimed known, s'.list = (p.run s.list).2 ∧ Extends s s' ∧ post (p.run s.list).1 s'

/-- The program says of the assignments that they have the property, and no more. -/
def Asserts (s : Stage aimed known) (p : Build Unit) (property : Assignment → Prop) : Prop :=
  s.Aims property → Builds s p fun _ s' => s'.Entails property

variable {p : Build α} {f : α → Build β} {mid post post' : α → Stage aimed known → Prop}
  {goal : β → Stage aimed known → Prop} {property property' : Assignment → Prop}

namespace Builds

theorem ret {x : α} (holds : post x s) : Builds s (pure x) post := ⟨s, rfl, .refl s, holds⟩

theorem bind (first : Builds s p mid)
    (rest : ∀ x s', Extends s s' → mid x s' → Builds s' (f x) goal) :
    Builds s (p >>= f) goal := by
  -- The second program runs on the netlist that the first one leaves.
  obtain ⟨s', same, step, holds⟩ := first
  obtain ⟨s'', same', step', holds'⟩ := rest _ s' step holds
  rw [same] at same' holds'
  exact ⟨s'', same', step.trans step', holds'⟩

theorem imp (built : Builds s p post) (weaker : ∀ x s', Extends s s' → post x s' → post' x s') :
    Builds s p post' := by
  obtain ⟨s', same, step, holds⟩ := built
  exact ⟨s', same, step, weaker _ s' step holds⟩

theorem returns {fact : α → Prop} (built : Builds s p post) (holds : fact (p.run s.list).1) :
    Builds s p fun x s' => post x s' ∧ fact x := by
  obtain ⟨s', same, step, met⟩ := built
  exact ⟨s', same, step, met, holds⟩

theorem emits (built : Builds s p post) : ∃ s' : Stage aimed known, s'.list = (p.run s.list).2 ∧
      (p.run s.list).2.clauses = s.before ++ s'.added ∧ Extends s s' ∧ post (p.run s.list).1 s' := by
  obtain ⟨s', same, step, holds⟩ := built
  refine ⟨s', same, ?_, step, holds⟩
  rw [← same, s'.split, step.before_eq]

theorem sound {s : Stage False known} {post : α → Stage False known → Prop} {added : Cnf}
    (built : Builds s p post) (emitted : (p.run s.list).2.clauses = s.before ++ added) :
    ∃ s' : Stage False known, s'.list = (p.run s.list).2 ∧ post (p.run s.list).1 s' ∧
      ∀ m, known m → Models m added → s'.Live m := by
  obtain ⟨s', same, clauses, _, holds⟩ := built.emits
  -- What follows the clauses from the start is determined.
  obtain rfl : added = s'.added := append_cancel_left (emitted.symm.trans clauses)
  exact ⟨s', same, holds, fun m fact models => ⟨fact, models, False.elim⟩⟩

theorem complete {s : Stage True known} {post : α → Stage True known → Prop} {added : Cnf}
    (built : Builds s p post) (emitted : (p.run s.list).2.clauses = s.before ++ added)
    (live : s.Live m) : ∃ m', AgreeBelow s.list.next m m' ∧ known m' ∧ Models m' added := by
  obtain ⟨s', _, clauses, step, _⟩ := built.emits
  obtain rfl : added = s'.added := append_cancel_left (emitted.symm.trans clauses)
  obtain ⟨m', agree, live'⟩ := step.widens trivial m live
  exact ⟨m', agree, live'.1, live'.2.1⟩

end Builds

theorem newVar_builds (wanted : Assignment → Bool) (isLocal : Local s.list.next wanted) :
    Builds s newVar fun var s' =>
      var = s.list.next ∧ var < s'.list.next ∧ s'.Aims fun m => m var = wanted m := by
  -- Agreement on one more variable includes agreement on those before it.
  have shrink : ∀ {m m' : Assignment}, AgreeBelow (s.list.next + 1) m m' →
      AgreeBelow s.list.next m m' := fun agree => agree.mono (by omega)
  let s' : Stage aimed known := {
    list := { s.list with next := s.list.next + 1 }
    before := s.before
    added := s.added
    split := s.split
    aim := fun m => s.aim m ∧ m s.list.next = wanted m
    below := fun clause mem lit lies => Nat.lt_succ_of_lt (s.below clause mem lit lies)
    aimLocal := by
      intro m m' agree
      simp only [s.aimLocal (shrink agree), isLocal (shrink agree),
        agree s.list.next (Nat.lt_succ_self _)]
    knownLocal := fun _ _ agree => s.knownLocal (shrink agree) }
  refine ⟨s', rfl, ⟨Nat.le_succ _, rfl, ?_, ?_⟩, rfl, Nat.lt_succ_self _, ?_⟩
  · rintro m ⟨fact, models, aim⟩
    exact ⟨fact, models, fun h => (aim h).1⟩
  · -- The variable is given the wanted value, which does not depend on it.
    intro h m live
    have agree := AgreeBelow.update m (wanted m) (Nat.le_refl s.list.next)
    have kept := live.transfer agree
    refine ⟨_, agree, kept.1, kept.2.1, fun _ => ⟨kept.2.2 h, ?_⟩⟩
    rw [update_self, isLocal agree]
  · exact fun h m live => (live.2.2 h).2

theorem addClause_asserts {clause : Clause} (below : ∀ lit ∈ clause, lit.var < s.list.next) :
    Asserts s (addClause clause) fun m => Satisfies m clause := by
  intro aim
  let s' : Stage aimed known := {
    list := { s.list with clauses := s.list.clauses ++ [clause] }
    before := s.before
    added := s.added ++ [clause]
    split := by rw [s.split, append_assoc]
    aim := s.aim
    below := by
      intro other mem
      rcases mem_append.mp mem with old | new
      · exact s.below other old
      · rw [mem_singleton.mp new]
        exact below
    aimLocal := s.aimLocal
    knownLocal := s.knownLocal }
  -- The models are those from before in which the new clause holds.
  have live_iff : ∀ m, s'.Live m ↔ s.Live m ∧ Satisfies m clause := by
    intro m
    simp only [Stage.Live, Models, s', forall_mem_append, forall_mem_singleton]
    tauto
  refine ⟨s', rfl, ⟨Nat.le_refl _, rfl, fun m live => ((live_iff m).mp live).1, ?_⟩, ?_⟩
  · exact fun h m live => ⟨m, .refl m, (live_iff m).mpr ⟨live, aim h m live⟩⟩
  · exact fun m live => ((live_iff m).mp live).2

namespace Asserts

theorem seq {p q : Build Unit} (first : Asserts s p property)
    (second : ∀ s', Extends s s' → Asserts s' q property') :
    Asserts s (do p; q) fun m => property m ∧ property' m := by
  intro aim
  refine (first fun h m live => (aim h m live).1).bind fun _ s' step holds => ?_
  -- What was wanted at first is still wanted after the first property.
  have rest : s'.Aims property' := fun h m live => (aim.later step h m live).2
  refine (second s' step rest).imp fun _ s'' step' holds' => ?_
  exact fun m live => ⟨holds m (step'.narrows m live), holds' m live⟩

theorem congr {p : Build Unit} (built : Asserts s p property)
    (same : ∀ m, s.Live m → (property m ↔ property' m)) : Asserts s p property' := by
  intro aim
  refine (built fun h m live => (same m live).mpr (aim h m live)).imp fun _ s' step holds => ?_
  exact fun m live => (same m (step.narrows m live)).mp (holds m live)

theorem skip (holds : ∀ m, s.Live m → property m) : Asserts s (pure ()) property :=
  fun _ => .ret holds

theorem forM {ι : Type} {items : List ι} {emit : ι → Build Unit} {claim : ι → Assignment → Prop}
    (each : ∀ item ∈ items, ∀ s' : Stage aimed known, Extends s s' →
      Asserts s' (emit item) (claim item)) :
    Asserts s (items.forM emit) fun m => ∀ item ∈ items, claim item m := by
  induction items generalizing s with
  | nil => exact skip fun m _ item mem => nomatch mem
  | cons item items ih =>
    -- The first element adds nothing to what the others need.
    have first := each item mem_cons_self s (.refl s)
    refine (seq first fun s' step => ih fun other mem s'' step' => ?_).congr fun m _ => ?_
    · exact each other (mem_cons_of_mem _ mem) s'' (step.trans step')
    · rw [forall_mem_cons]

theorem clauses {formula : Cnf} (below : VarsBelow s.list.next formula) :
    Asserts s (formula.forM addClause) fun m => Models m formula :=
  forM fun clause mem _ step => addClause_asserts fun lit lies =>
    step.lt (below clause mem lit lies)

end Asserts

theorem define_then {emit : Nat → Build Unit} {rest : Nat → Build β}
    {wanted : Assignment → Bool} (isLocal : Local s.list.next wanted)
    (emits : ∀ var (s' : Stage aimed known), Extends s s' → var < s'.list.next →
      Asserts s' (emit var) fun m => m var = wanted m)
    (builds : ∀ var (s' : Stage aimed known), Extends s s' → var < s'.list.next →
      (s'.Entails fun m => m var = wanted m) → Builds s' (rest var) goal) :
    Builds s (do let var ← newVar; emit var; rest var) goal := by
  -- The value that the clauses force is the one that was wanted.
  refine (newVar_builds wanted isLocal).bind fun var s' step ⟨_, within, aim⟩ => ?_
  refine (emits var s' step within aim).bind fun _ s'' step' holds => ?_
  exact builds var s'' (step.trans step') (step'.lt within) holds

theorem define_builds {emit : Nat → Build Unit} (wrap : Nat → α) {wanted : Assignment → Bool}
    (isLocal : Local s.list.next wanted)
    (emits : ∀ var (s' : Stage aimed known), Extends s s' → var < s'.list.next →
      Asserts s' (emit var) fun m => m var = wanted m) :
    Builds s (do let var ← newVar; emit var; return wrap var) fun x s' =>
      ∃ var, x = wrap var ∧ var < s'.list.next ∧ s'.Entails fun m => m var = wanted m :=
  define_then isLocal emits fun var _ _ within holds => .ret ⟨var, rfl, within, holds⟩

end Netlist

end Nixie
