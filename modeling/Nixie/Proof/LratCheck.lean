import Mathlib.Algebra.Group.Int.Defs
import Mathlib.Logic.Function.Basic

/-! The LRAT checker: records are read from text and replayed over the active clauses. -/

namespace Nixie.Lrat

open Function Option

abbrev Token := List Char

inductive RupFailure where
  | inactive (hint : Int)
  | notUnit (hint : Int)
  | exhausted
  deriving DecidableEq, Repr

/-- Why a proof is rejected, with the line where it happens. -/
inductive Failure where
  | emptyRecord (line : Nat)
  | badId (line : Nat)
  | unterminatedDeletion (line : Nat)
  | badDeletion (line : Nat) (token : Token)
  | unterminatedLiterals (line : Nat)
  | badLiteral (line : Nat) (token : Token)
  | unterminatedHints (line : Nat)
  | badHint (line : Nat) (token : Token)
  | rejected (line : Nat) (id : Int) (reason : RupFailure)
  | noEmptyClause
  deriving DecidableEq, Repr

/-- Outcome of checking a proof. -/
structure LratCheckReport where
  /-- Every addition verified and the empty clause was reached. -/
  verified : Bool
  additionsChecked : Nat
  deletionsApplied : Nat
  failure : Option Failure
  deriving DecidableEq, Repr

def LratCheckReport.reject (reason : Failure) (additions deletions : Nat) : LratCheckReport where
  verified := false
  additionsChecked := additions
  deletionsApplied := deletions
  failure := some reason

def LratCheckReport.accept (additions deletions : Nat) : LratCheckReport where
  verified := true
  additionsChecked := additions
  deletionsApplied := deletions
  failure := none

section

/-- The smallest literal, whose negation and absolute value wrap around to itself. -/
def minLit : Int := -2147483648

def negate (lit : Int) : Int := if lit = minLit then minLit else -lit

def variable_ (lit : Int) : Int := if lit = minLit then minLit else lit.natAbs

/-- Truth value of a literal under a partial assignment. -/
inductive LitStatus where
  | true
  | false
  | unassigned
  deriving DecidableEq, Repr

abbrev Assignment := Int → Option Bool

def status (assigned : Assignment) (lit : Int) : LitStatus :=
  match assigned (variable_ lit) with
  | none => .unassigned
  | some value => if decide (0 < lit) = value then .true else .false

/-- Assign a literal; nothing stands for a clash with the assigned value. -/
def assignTrue (assigned : Assignment) (lit : Int) : Option Assignment :=
  match assigned (variable_ lit) with
  | some have_ => if have_ = decide (0 < lit) then some assigned else none
  | none => some (update assigned (variable_ lit) (some (decide (0 < lit))))

end

section

instance instLawfulBEqLits : LawfulBEq (List Int) := inferInstance

abbrev Active := Int → Option (List Int)

/-- Assign every literal of a clause false; nothing stands for a tautology. -/
def assumeNegation : List Int → Assignment → Option Assignment
  | [], assigned => some assigned
  | lit :: rest, assigned =>
      match assignTrue assigned (negate lit) with
      | some assigned => assumeNegation rest assigned
      | none => none

inductive Scan where
  | satisfied
  | conflict
  /-- One literal is open, however often it occurs. -/
  | unit (lit : Int)
  | several
  deriving DecidableEq, Repr

/-- Scan a hint clause, with the open literal seen so far and whether there was another. -/
def scan (assigned : Assignment) (pending : Option Int) (several : Bool) : List Int → Scan
  | [] =>
      match pending with
      | none => .conflict
      | some lit => if several then .several else .unit lit
  | lit :: rest =>
      match status assigned lit with
      | .true => .satisfied
      | .false => scan assigned pending several rest
      | .unassigned =>
          if pending.any fun other => other != lit then scan assigned pending true rest
          else scan assigned (some lit) several rest

def replay (active : Active) : List Int → Assignment → Except RupFailure Unit
  | [], _ => .error .exhausted
  | hint :: rest, assigned =>
      match active hint with
      | none => .error (.inactive hint)
      | some clause =>
          match scan assigned none false clause with
          | .satisfied => replay active rest assigned
          | .conflict => .ok ()
          | .unit lit => replay active rest ((assignTrue assigned lit).getD assigned)
          | .several => .error (.notUnit hint)

def rupCheck (active : Active) (clause hints : List Int) : Except RupFailure Unit :=
  match assumeNegation clause fun _ => none with
  | none => .ok ()
  | some assigned => replay active hints assigned

end

section

inductive LratLine where
  | addition (id : Int) (lits hints : List Int)
  | deletion (ids : List Int)
  deriving DecidableEq, Repr

def isWhitespace (char : Char) : Bool :=
  (0x9 ≤ char.toNat ∧ char.toNat ≤ 0xD) ∨ (0x2000 ≤ char.toNat ∧ char.toNat ≤ 0x200A) ∨
    char.toNat ∈ [0x20, 0x85, 0xA0, 0x1680, 0x2028, 0x2029, 0x202F, 0x205F, 0x3000]

def splitWhitespace (line : List Char) : List Token :=
  (line.splitOnP isWhitespace).filter fun token => token ≠ []

def parseDigits (digits : List Char) : Option Nat :=
  if digits ≠ [] ∧ digits.all Char.isDigit then
    some (digits.foldl (fun value digit => 10 * value + (digit.toNat - '0'.toNat)) 0)
  else none

/-- The value of a signed decimal number of the given width. -/
def parseInt (width : Nat) (token : Token) : Option Int :=
  let value : Option Int :=
    match token with
    | '-' :: digits => (parseDigits digits).map fun value => -(value : Int)
    | '+' :: digits => (parseDigits digits).map fun value => (value : Int)
    | digits => (parseDigits digits).map fun value => (value : Int)
  value.filter fun value => -2 ^ (width - 1) ≤ value ∧ value < 2 ^ (width - 1)

def readValues (width : Nat) (missing : Failure) (bad : Token → Failure) :
    List Token → Except Failure (List Int × List Token)
  | [] => .error missing
  | token :: rest =>
      match parseInt width token with
      | none => .error (bad token)
      | some value =>
          if value = 0 then .ok ([], rest)
          else do
            let (values, rest) ← readValues width missing bad rest
            return (value :: values, rest)

def parseLratLine (line : List Char) (number : Nat) : Except Failure LratLine :=
  match splitWhitespace line with
  | [] => .error (.emptyRecord number)
  | first :: rest =>
      match parseInt 64 first with
      | none => .error (.badId number)
      | some id =>
          if rest.head? = some ['d'] then do
            let (ids, _) ← readValues 64 (.unterminatedDeletion number) (.badDeletion number) rest.tail
            return .deletion ids
          else do
            let (lits, rest) ← readValues 32 (.unterminatedLiterals number) (.badLiteral number) rest
            let (hints, _) ← readValues 64 (.unterminatedHints number) (.badHint number) rest
            return .addition id lits hints

def originalActive (originals : List (List Int)) : Active :=
  fun id => if 1 ≤ id then originals[(id - 1).toNat]? else none

def checkLines (active : Active) (additions deletions : Nat) :
    List (List Char × Nat) → LratCheckReport
  | [] => .reject .noEmptyClause additions deletions
  | (line, number) :: rest =>
      -- A line of blanks has no token and is skipped.
      if splitWhitespace line = [] then checkLines active additions deletions rest
      else match parseLratLine line number with
        | .error reason => .reject reason additions deletions
        | .ok (.deletion ids) =>
            let kept := ids.foldl (fun active id => update active id none) active
            checkLines kept additions (deletions + 1) rest
        | .ok (.addition id lits hints) =>
            match rupCheck active lits hints with
            | .error reason => .reject (.rejected number id reason) additions deletions
            | .ok () =>
                if lits = [] then .accept (additions + 1) deletions
                else checkLines (update active id (some lits)) (additions + 1) deletions rest

def checkLratProof (originals : List (List Int)) (text : String) : LratCheckReport :=
  if [] ∈ originals then .accept 0 0
  else checkLines (originalActive originals) 0 0 ((text.toList.splitOn '\n').zipIdx 1)

end

section

/-- The literal is true under a total assignment. -/
def LitHolds (model : Int → Bool) (lit : Int) : Prop := model (variable_ lit) = decide (0 < lit)

/-- Some literal of the clause is true. -/
def ClauseHolds (model : Int → Bool) (clause : List Int) : Prop := ∃ lit ∈ clause, LitHolds model lit

/-- Every clause of the list is true under some assignment. -/
def Satisfiable (clauses : List (List Int)) : Prop :=
  ∃ model, ∀ clause ∈ clauses, ClauseHolds model clause

def ActiveHolds (model : Int → Bool) (active : Active) : Prop :=
  ∀ id clause, active id = some clause → ClauseHolds model clause

/-- The partial assignment is part of the total one. -/
def Agrees (model : Int → Bool) (assigned : Assignment) : Prop :=
  ∀ var value, assigned var = some value → model var = value

variable {model : Int → Bool} {assigned : Assignment}

theorem Agrees.status (agrees : Agrees model assigned) {lit : Int} :
    (status assigned lit = .true → LitHolds model lit) ∧
      (status assigned lit = .false → ¬ LitHolds model lit) := by
  unfold Lrat.status LitHolds
  cases found : assigned (variable_ lit) with
  | none => simp
  | some value =>
    -- The recorded value is the value of the total assignment.
    have same := agrees _ _ found
    by_cases sign : decide (0 < lit) = value
    · simp [sign, same]
    · simp only [sign, if_false, reduceCtorEq, false_implies, true_and, forall_const]
      rw [same]
      exact fun clash => sign clash.symm

theorem Agrees.assignTrue (agrees : Agrees model assigned) {lit : Int} (holds : LitHolds model lit) :
    ∃ longer, assignTrue assigned lit = some longer ∧ Agrees model longer := by
  unfold Lrat.assignTrue
  cases found : assigned (variable_ lit) with
  | some value =>
    have same : value = decide (0 < lit) := (agrees _ _ found).symm.trans holds
    exact ⟨assigned, by simp [same], agrees⟩
  | none =>
    refine ⟨_, rfl, fun var value updated => ?_⟩
    by_cases here : var = variable_ lit
    · subst here
      rw [update_self] at updated
      exact holds.trans (some.inj updated)
    · rw [update_of_ne here] at updated
      exact agrees var value updated

theorem scan_several (assigned : Assignment) : ∀ (clause : List Int) (pending : Int),
    scan assigned (some pending) true clause = .satisfied ∨
      scan assigned (some pending) true clause = .several := by
  intro clause
  induction clause with
  | nil => exact fun pending => .inr rfl
  | cons lit rest ih =>
    intro pending
    unfold scan
    cases status assigned lit with
    | true => exact .inl rfl
    | false => exact ih pending
    | unassigned =>
      dsimp only
      split
      · exact ih pending
      · exact ih lit

theorem Agrees.scan (agrees : Agrees model assigned) :
    ∀ {clause : List Int} {pending : Option Int} {several : Bool},
      (∃ lit, (lit ∈ clause ∨ pending = some lit) ∧ LitHolds model lit) →
      scan assigned pending several clause ≠ .conflict ∧
        ∀ lit, scan assigned pending several clause = .unit lit → LitHolds model lit := by
  intro clause
  induction clause with
  | nil =>
    intro pending several ⟨lit, place, holds⟩
    have seen : pending = some lit := place.resolve_left (List.not_mem_nil)
    subst seen
    unfold Lrat.scan
    cases several with
    | true => simp
    | false =>
      refine ⟨by simp, fun other same => ?_⟩
      cases same
      exact holds
  | cons head rest ih =>
    intro pending several ⟨lit, place, holds⟩
    unfold Lrat.scan
    cases found : Lrat.status assigned head with
    | true => simp
    | false =>
      -- A false literal is not the one that holds.
      refine ih ⟨lit, ?_, holds⟩
      rcases place with mem | seen
      · rcases List.mem_cons.mp mem with rfl | later
        · exact absurd holds (agrees.status.2 found)
        · exact .inl later
      · exact .inr seen
    | unassigned =>
      dsimp only
      split
      · -- Two open literals: the result is neither a conflict nor a unit.
        cases pending with
        | none => simp_all
        | some first =>
          rcases scan_several assigned rest first with same | same <;> rw [same] <;> simp
      · rename_i alone
        refine ih ⟨lit, ?_, holds⟩
        rcases place with mem | seen
        · rcases List.mem_cons.mp mem with rfl | later
          · exact .inr rfl
          · exact .inl later
        · subst seen
          have same : lit = head := by simpa using alone
          exact .inr (congrArg some same.symm)

theorem Agrees.replay {active : Active} (holds : ActiveHolds model active) :
    ∀ {hints : List Int} {assigned : Assignment}, Agrees model assigned →
      replay active hints assigned ≠ .ok () := by
  intro hints
  induction hints with
  | nil => exact fun _ => nofun
  | cons hint rest ih =>
    intro assigned agrees
    unfold Lrat.replay
    cases found : active hint with
    | none => exact nofun
    | some clause =>
      dsimp only
      obtain ⟨lit, mem, true_⟩ := holds hint clause found
      have spec := @Agrees.scan _ _ agrees clause none false
        ⟨lit, .inl mem, true_⟩
      cases outcome : Lrat.scan assigned none false clause with
      | satisfied => exact ih agrees
      | conflict => exact absurd outcome spec.1
      | unit lit =>
        obtain ⟨longer, assigned_, agrees_⟩ := agrees.assignTrue (spec.2 lit outcome)
        dsimp only
        rw [assigned_, getD_some]
        exact ih agrees_
      | several => exact nofun

/-- A model with the smallest literal true, which no clause can object to. -/
def favour (model : Int → Bool) : Int → Bool := update model minLit false

theorem variable_eq_minLit {lit : Int} : variable_ lit = minLit ↔ lit = minLit := by
  unfold variable_
  split
  · simp_all
  · rename_i other
    constructor
    · intro same
      -- An absolute value is not negative.
      unfold minLit at same
      omega
    · exact fun same => absurd same other

theorem LitHolds.favour {lit : Int} (holds : LitHolds model lit) : LitHolds (favour model) lit := by
  unfold LitHolds Lrat.favour
  by_cases smallest : lit = minLit
  · rw [variable_eq_minLit.mpr smallest, update_self, smallest]
    decide
  · rw [update_of_ne (fun same => smallest (variable_eq_minLit.mp same))]
    exact holds

theorem LitHolds.favour_negate {lit : Int} (nonzero : lit ≠ 0) (lies : lit < -minLit)
    (fails : ¬ LitHolds model lit) : LitHolds (Lrat.favour model) (negate lit) := by
  by_cases smallest : lit = minLit
  · -- The smallest literal is its own wrapped negation.
    subst smallest
    show update model minLit false minLit = decide (0 < minLit)
    rw [update_self]
    decide
  · have flip : negate lit = -lit := if_neg smallest
    have proper : -lit ≠ minLit := by
      unfold minLit at lies ⊢
      omega
    have var : variable_ (-lit) = variable_ lit := by
      unfold variable_
      rw [if_neg proper, if_neg smallest, Int.natAbs_neg]
    unfold LitHolds at fails ⊢
    rw [flip, Lrat.favour, var, update_of_ne fun same => smallest (variable_eq_minLit.mp same)]
    -- The value of the variable is not the sign of the literal, so it is the opposite sign.
    cases value : model (variable_ lit) with
    | true =>
      rw [value] at fails
      have negative : ¬ 0 < lit := fun pos => fails (by simp [pos])
      have pos : 0 < -lit := by omega
      exact (decide_eq_true pos).symm
    | false =>
      rw [value] at fails
      have pos : 0 < lit := by
        by_contra negative
        exact fails (by simp [negative])
      have negative : ¬ 0 < -lit := by omega
      exact (decide_eq_false negative).symm

theorem Agrees.assumeNegation : ∀ {clause : List Int} {assigned : Assignment},
    (∀ lit ∈ clause, lit ≠ 0 ∧ lit < -minLit ∧ ¬ LitHolds model lit) →
    Agrees (Lrat.favour model) assigned → ∃ longer, assumeNegation clause assigned = some longer ∧
        Agrees (Lrat.favour model) longer := by
  intro clause
  induction clause with
  | nil => exact fun _ agrees => ⟨_, rfl, agrees⟩
  | cons lit rest ih =>
    intro assigned fails agrees
    obtain ⟨nonzero, lies, false_⟩ := fails lit (.head _)
    obtain ⟨longer, step, agrees_⟩ := agrees.assignTrue (LitHolds.favour_negate nonzero lies false_)
    unfold Lrat.assumeNegation
    rw [step]
    exact ih (fun other mem => fails other (.tail _ mem)) agrees_

theorem rupCheck_sound {active : Active} {clause hints : List Int}
    (proper : ∀ lit ∈ clause, lit ≠ 0 ∧ lit < -minLit)
    (verified : rupCheck active clause hints = .ok ()) (holds : ActiveHolds model active) :
    ClauseHolds model clause := by
  by_contra fails
  -- Otherwise the assumption and the hints stay true in the favoured assignment.
  have false_ : ∀ lit ∈ clause, ¬ LitHolds model lit := fun lit mem true_ =>
    fails ⟨lit, mem, true_⟩
  obtain ⟨assigned, assumed, agrees⟩ := @Agrees.assumeNegation model clause
    (fun _ => none)
    (fun lit mem => ⟨(proper lit mem).1, (proper lit mem).2, false_ lit mem⟩) (fun _ _ absent => nomatch absent)
  have favoured : ActiveHolds (favour model) active := by
    intro id other found
    obtain ⟨lit, mem, true_⟩ := holds id other found
    exact ⟨lit, mem, true_.favour⟩
  unfold rupCheck at verified
  rw [assumed] at verified
  exact agrees.replay favoured verified

theorem ActiveHolds.delete {active : Active} (holds : ActiveHolds model active) (ids : List Int) :
    ActiveHolds model (ids.foldl (fun active id => update active id none) active) := by
  induction ids generalizing active with
  | nil => exact holds
  | cons id rest ih =>
    refine ih fun other clause found => ?_
    dsimp only at found
    by_cases same : other = id
    · subst same
      rw [update_self] at found
      cases found
    · rw [update_of_ne same] at found
      exact holds other clause found

theorem ActiveHolds.insert {active : Active} (holds : ActiveHolds model active) (id : Int)
    {clause : List Int} (true_ : ClauseHolds model clause) :
    ActiveHolds model (update active id (some clause)) := by
  intro other found_clause found
  by_cases same : other = id
  · subst same
    rw [update_self] at found
    exact some.inj found ▸ true_
  · rw [update_of_ne same] at found
    exact holds other found_clause found

theorem readValues_proper {width : Nat} {missing : Failure} {bad : Token → Failure} :
    ∀ {tokens : List Token} {values : List Int} {rest : List Token},
      readValues width missing bad tokens = .ok (values, rest) →
        ∀ value ∈ values, value ≠ 0 ∧ value < 2 ^ (width - 1) := by
  intro tokens
  induction tokens with
  | nil => exact fun failed => nomatch failed
  | cons token later ih =>
    intro values rest read
    unfold readValues at read
    cases parsed : parseInt width token with
    | none =>
      rw [parsed] at read
      cases read
    | some number =>
      rw [parsed] at read
      dsimp only at read
      have lies : number < 2 ^ (width - 1) := by
        unfold parseInt at parsed
        obtain ⟨-, range⟩ := filter_eq_some_iff.mp parsed
        simp only [decide_eq_true_eq] at range
        exact range.2
      split at read
      · cases read
        exact fun _ mem => nomatch mem
      · rename_i nonzero
        cases tail : readValues width missing bad later with
        | error reason =>
          rw [tail] at read
          cases read
        | ok pair =>
          rw [tail] at read
          cases read
          intro value mem
          rcases List.mem_cons.mp mem with rfl | old
          · exact ⟨nonzero, lies⟩
          · exact ih tail value old

theorem parseLratLine_proper {line : List Char} {number : Nat} {id : Int} {lits hints : List Int}
    (parsed : parseLratLine line number = .ok (.addition id lits hints)) :
    ∀ lit ∈ lits, lit ≠ 0 ∧ lit < -minLit := by
  unfold parseLratLine at parsed
  cases tokens : splitWhitespace line with
  | nil =>
    rw [tokens] at parsed
    cases parsed
  | cons first rest =>
    rw [tokens] at parsed
    dsimp only at parsed
    cases leading : parseInt 64 first with
    | none =>
      rw [leading] at parsed
      cases parsed
    | some value =>
      rw [leading] at parsed
      dsimp only at parsed
      split at parsed
      · -- A deletion is no addition.
        cases ids : readValues 64 (.unterminatedDeletion number) (.badDeletion number) rest.tail with
        | error reason =>
          rw [ids] at parsed
          cases parsed
        | ok pair =>
          rw [ids] at parsed
          cases parsed
      · cases literals : readValues 32 (.unterminatedLiterals number) (.badLiteral number) rest with
        | error reason =>
          rw [literals] at parsed
          cases parsed
        | ok pair =>
          rw [literals] at parsed
          cases chain : readValues 64 (.unterminatedHints number) (.badHint number) pair.2 with
          | error reason =>
            simp only [bind, Except.bind, chain] at parsed
            cases parsed
          | ok hint_pair =>
            simp only [bind, Except.bind, chain, pure, Except.pure] at parsed
            cases parsed
            exact readValues_proper literals

theorem checkLines_sound : ∀ {lines : List (List Char × Nat)} {active : Active}
    {additions deletions : Nat}, ActiveHolds model active →
      (checkLines active additions deletions lines).verified = false := by
  intro lines
  induction lines with
  | nil => exact fun _ => rfl
  | cons entry rest ih =>
    obtain ⟨line, number⟩ := entry
    intro active additions deletions holds
    unfold checkLines
    split
    · exact ih holds
    · split
      · rfl
      · exact ih (holds.delete _)
      · rename_i id lits hints parsed
        split
        · rfl
        · rename_i verified
          have true_ := rupCheck_sound (parseLratLine_proper parsed) verified holds
          split
          · -- The empty clause holds nowhere.
            rename_i empty
            obtain ⟨lit, mem, -⟩ := true_
            rw [empty] at mem
            cases mem
          · exact ih (holds.insert id true_)

/-- A verified proof shows that the original clauses are unsatisfiable. -/
theorem checkLratProof_sound {originals : List (List Int)} {text : String}
    (verified : (checkLratProof originals text).verified = true) : ¬ Satisfiable originals := by
  intro ⟨model, holds⟩
  unfold checkLratProof at verified
  split at verified
  · rename_i empty
    obtain ⟨lit, member, -⟩ := holds [] empty
    cases member
  · have active : ActiveHolds model (originalActive originals) := by
      intro id clause found
      unfold originalActive at found
      split at found
      · exact holds clause (List.mem_of_getElem? found)
      · cases found
    rw [checkLines_sound active] at verified
    cases verified

/-- A small proof that verifies. -/
theorem exampleProof_sound : ¬ Satisfiable [[1, 2], [-1], [-2]] :=
  @checkLratProof_sound _ ("4 2 0 1 2 0\n4 d 1 0\n5 0 4 3 0\n") (by decide +kernel)

end

end Nixie.Lrat
