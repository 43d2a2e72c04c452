import Mathlib.Order.Nat
import Nixie.Logic.Cnf

/-! The assignment trail: its operations, and the representation they keep. -/

namespace Nixie.Sat

open List

inductive Reason where
  | decision
  | propagation (clause : Nat)
  | theory
  deriving DecidableEq, Repr

/-- What the trail records about a variable. -/
structure VarInfo where
  value : Option Bool
  level : Nat
  reason : Reason
  trailIdx : Nat
  deriving DecidableEq, Repr

/-- The record of a variable that was never assigned. -/
def VarInfo.default : VarInfo where
  value := none
  level := 0
  reason := .decision
  trailIdx := 0

/-- The trail; its arrays hold the default entry beyond their length. -/
structure Trail where
  assignments : List Lit
  /-- Truth value by literal code: one, minus one, or zero for undefined. -/
  values : Nat → Int
  varInfo : Nat → VarInfo
  /-- Trail length at the start of each decision level. -/
  levelStarts : List Nat
  currentLevel : Nat
  propHead : Nat

namespace Trail

def new : Trail where
  assignments := []
  values := fun _ => 0
  varInfo := fun _ => .default
  levelStarts := [0]
  currentLevel := 0
  propHead := 0

def litVal (trail : Trail) (lit : Lit) : Int := trail.values lit.code

def isAssigned (trail : Trail) (var : Nat) : Bool := trail.values (Lit.pos var).code != 0

def level (trail : Trail) (var : Nat) : Nat := (trail.varInfo var).level

def trailIndex (trail : Trail) (var : Nat) : Nat := (trail.varInfo var).trailIdx

def levelStart (trail : Trail) (level : Nat) : Nat :=
  (trail.levelStarts[level]?).getD trail.assignments.length

def newDecisionLevel (trail : Trail) : Trail :=
  { trail with
    currentLevel := trail.currentLevel + 1
    levelStarts := trail.levelStarts ++ [trail.assignments.length] }

def assignAt (trail : Trail) (lit : Lit) (reason : Reason) (level : Nat) : Trail :=
  { trail with
    values := Function.update (Function.update trail.values lit.code 1) lit.negate.code (-1)
    varInfo := Function.update trail.varInfo lit.var
      { value := some (!lit.isNeg)
        level := level
        reason := reason
        trailIdx := trail.assignments.length }
    assignments := trail.assignments ++ [lit] }

def assign (trail : Trail) (lit : Lit) (reason : Reason) : Trail :=
  trail.assignAt lit reason trail.currentLevel

def eraseValues (lit : Lit) (values : Nat → Int) : Nat → Int :=
  Function.update (Function.update values lit.code 0) lit.negate.code 0

/-- Unassign a literal that was taken off the trail, keeping the rest of its record. -/
def unassignValue (trail : Trail) (lit : Lit) : Trail :=
  { trail with
    values := eraseValues lit trail.values
    varInfo := Function.update trail.varInfo lit.var
      { trail.varInfo lit.var with value := none } }

/-- Cut the trail to a size and return to level zero. -/
def backtrackToSize (trail : Trail) (size : Nat) : Trail :=
  -- Literals are popped newest first.
  let popped := (trail.assignments.drop size).reverse.foldl unassignValue
    { trail with assignments := trail.assignments.take size }
  { popped with
    currentLevel := 0
    levelStarts := trail.levelStarts.take 1
    propHead := (trail.assignments.take size).length }

/-- Unassign a literal above the level, or move it down behind the kept ones. -/
def filterStep (level : Nat) (trail : Trail) (lit : Lit) : Trail :=
  if (trail.varInfo lit.var).level > level then
    { trail with
      values := eraseValues lit trail.values
      varInfo := Function.update trail.varInfo lit.var .default }
  else
    { trail with
      assignments := trail.assignments ++ [lit]
      varInfo := Function.update trail.varInfo lit.var
        { trail.varInfo lit.var with trailIdx := trail.assignments.length } }

def backtrackTo (trail : Trail) (level : Nat) : Trail :=
  if level ≥ trail.currentLevel then trail
  else
    let boundary := trail.levelStart (level + 1)
    let filtered := (trail.assignments.drop boundary).foldl (filterStep level)
      { trail with assignments := trail.assignments.take boundary }
    { filtered with
      levelStarts := trail.levelStarts.take (level + 1)
      currentLevel := level
      propHead := min trail.propHead boundary }

def clear (trail : Trail) : Trail :=
  { trail.assignments.foldl unassignValue { trail with assignments := [] } with
    levelStarts := [0]
    currentLevel := 0
    propHead := 0 }

def nextToPropagate (trail : Trail) : Trail × Option Lit :=
  if trail.propHead < trail.assignments.length then
    ({ trail with propHead := trail.propHead + 1 }, trail.assignments[trail.propHead]?)
  else (trail, none)

def requeueLastPropagated (trail : Trail) : Trail := { trail with propHead := trail.propHead - 1 }

def resetPropagationHead (trail : Trail) : Trail := { trail with propHead := 0 }

inductive Op where
  | newDecisionLevel
  | assign (lit : Lit) (reason : Reason)
  | assignAt (lit : Lit) (reason : Reason) (level : Nat)
  | backtrackTo (level : Nat)
  | backtrackToSize (size : Nat)
  | clear
  | nextToPropagate
  | requeueLastPropagated
  | resetPropagationHead
  deriving DecidableEq, Repr

def apply (trail : Trail) : Op → Trail
  | .newDecisionLevel => trail.newDecisionLevel
  | .assign lit reason => trail.assign lit reason
  | .assignAt lit reason level => trail.assignAt lit reason level
  | .backtrackTo level => trail.backtrackTo level
  | .backtrackToSize size => trail.backtrackToSize size
  | .clear => trail.clear
  | .nextToPropagate => trail.nextToPropagate.1
  | .requeueLastPropagated => trail.requeueLastPropagated
  | .resetPropagationHead => trail.resetPropagationHead

def Allowed (trail : Trail) : Op → Prop
  | .assign lit _ => trail.isAssigned lit.var = false
  | .assignAt lit _ level => trail.isAssigned lit.var = false ∧ level ≤ trail.currentLevel
  | .backtrackToSize size => ∀ lit ∈ trail.assignments.take size, trail.level lit.var = 0
  | _ => True

/-- The trails that calls reach from the empty trail. -/
inductive Reachable (allowed : Trail → Op → Prop) : Trail → Prop where
  | new : Reachable allowed Trail.new
  | step {trail : Trail} (before : Reachable allowed trail) (op : Op) (permitted : allowed trail op) :
      Reachable allowed (trail.apply op)

/-- The representation of a trail. -/
structure Represents (trail : Trail) : Prop where
  onTrail : ∀ lit, lit ∈ trail.assignments ↔ trail.litVal lit = 1
  recorded : ∀ lit, lit ∈ trail.assignments ↔ (trail.varInfo lit.var).value = some (!lit.isNeg)
  opposite : ∀ lit, trail.litVal lit = -1 ↔ trail.litVal lit.negate = 1
  distinct : (trail.assignments.map Lit.var).Nodup
  indexed : ∀ position lit, trail.assignments[position]? = some lit →
    trail.trailIndex lit.var = position
  levels : ∀ lit ∈ trail.assignments, trail.level lit.var ≤ trail.currentLevel
  starts : trail.levelStarts.length = trail.currentLevel + 1
  sorted : trail.levelStarts.Pairwise (· ≤ ·)
  within : ∀ start ∈ trail.levelStarts, start ≤ trail.assignments.length

section

variable {trail : Trail}

/-- Values and records fit the trail and a list of literals that still have to be looked at. -/
structure Pending (trail : Trail) (rest : List Lit) : Prop where
  distinct : ((trail.assignments ++ rest).map Lit.var).Nodup
  on : ∀ lit ∈ trail.assignments ++ rest, trail.litVal lit = 1 ∧ trail.litVal lit.negate = -1 ∧
    (trail.varInfo lit.var).value = some (!lit.isNeg)
  off : ∀ lit : Lit, lit.var ∉ (trail.assignments ++ rest).map Lit.var →
    trail.litVal lit = 0 ∧ (trail.varInfo lit.var).value = none
  indexed : ∀ position lit, trail.assignments[position]? = some lit →
    trail.trailIndex lit.var = position

theorem eraseValues_code (lit other : Lit) (values : Nat → Int) :
    eraseValues lit values other.code = if other.var = lit.var then 0 else values other.code := by
  unfold eraseValues
  by_cases same : other.var = lit.var
  · rw [if_pos same]
    -- A literal of the variable is the literal itself or its negation.
    rcases Lit.eq_or_negate same with rfl | rfl
    · have flip : other.code ≠ other.negate.code := fun codes =>
        Lit.negate_ne other (Lit.code_injective codes).symm
      rw [Function.update_of_ne flip, Function.update_self]
    · rw [Function.update_self]
  · have first : other.code ≠ lit.negate.code := by
      intro codes
      have var := congrArg Lit.var (Lit.code_injective codes)
      exact same var
    have second : other.code ≠ lit.code := fun codes =>
      same (congrArg Lit.var (Lit.code_injective codes))
    rw [if_neg same, Function.update_of_ne first, Function.update_of_ne second]

theorem assignAt_litVal (lit other : Lit) (reason : Reason) (level : Nat) :
    (trail.assignAt lit reason level).litVal other =
      if other = lit then 1 else if other = lit.negate then -1 else trail.litVal other := by
  unfold litVal assignAt
  dsimp only
  by_cases negated : other = lit.negate
  · subst negated
    rw [Function.update_self, if_neg (Lit.negate_ne lit), if_pos rfl]
  · rw [Function.update_of_ne (fun codes => negated (Lit.code_injective codes)), if_neg negated]
    by_cases same : other = lit
    · subst same
      rw [Function.update_self, if_pos rfl]
    · rw [Function.update_of_ne (fun codes => same (Lit.code_injective codes)), if_neg same]

theorem Pending.fresh (pending : Pending trail []) {lit : Lit}
    (unassigned : trail.isAssigned lit.var = false) :
    lit.var ∉ trail.assignments.map Lit.var := by
  intro mem
  obtain ⟨other, lies, same⟩ := mem_map.mp mem
  obtain ⟨true_, false_, -⟩ := pending.on other (mem_append_left _ lies)
  -- One of the two literals of the variable is the positive one.
  have pos : trail.litVal (Lit.pos lit.var) ≠ 0 := by
    rw [← same]
    obtain ⟨var, sign⟩ := other
    cases sign
    · show trail.litVal ⟨var, false⟩ ≠ 0
      rw [true_]
      decide
    · show trail.litVal (Lit.negate ⟨var, true⟩) ≠ 0
      rw [false_]
      decide
  unfold isAssigned at unassigned
  simp only [bne_eq_false_iff_eq] at unassigned
  exact pos unassigned

theorem Pending.assignAt (pending : Pending trail []) {lit : Lit}
    (fresh : lit.var ∉ trail.assignments.map Lit.var) (reason : Reason) (level : Nat) :
    Pending (trail.assignAt lit reason level) [] := by
  have ne : ∀ other ∈ trail.assignments, other.var ≠ lit.var := fun other mem same =>
    fresh (same ▸ mem_map_of_mem mem)
  refine ⟨?_, fun other mem => ?_, fun other absent => ?_, fun position other found => ?_⟩
  · simp only [Trail.assignAt, append_nil, map_append, map_cons, map_nil]
    have old := pending.distinct
    rw [append_nil] at old
    exact nodup_append.mpr ⟨old, by simp, by
      intro var before var' last
      rw [mem_singleton] at last
      exact fun same => fresh (last ▸ same ▸ before)⟩
  · rw [append_nil] at mem
    simp only [Trail.assignAt] at mem
    rcases mem_append.mp mem with old | last
    · have other_ := ne other old
      obtain ⟨true_, false_, value⟩ := pending.on other (mem_append_left _ old)
      have apart : ∀ {first : Lit}, first.var = other.var → first ≠ lit ∧ first ≠ lit.negate :=
        fun var => ⟨fun same => other_ (var ▸ same ▸ rfl), fun same => other_ (var ▸ same ▸ rfl)⟩
      rw [assignAt_litVal, assignAt_litVal, if_neg (apart rfl).1, if_neg (apart rfl).2,
        if_neg (apart (Lit.negate_var other)).1, if_neg (apart (Lit.negate_var other)).2]
      refine ⟨true_, false_, ?_⟩
      simp only [Trail.assignAt]
      rw [Function.update_of_ne other_]
      exact value
    · rw [mem_singleton] at last
      subst last
      rw [assignAt_litVal, assignAt_litVal, if_pos rfl, if_neg (Lit.negate_ne other), if_pos rfl]
      refine ⟨rfl, rfl, ?_⟩
      simp only [Trail.assignAt]
      rw [Function.update_self]
  · simp only [Trail.assignAt, append_nil, map_append, map_cons, map_nil,
      mem_append, mem_singleton, not_or] at absent
    obtain ⟨value, record⟩ := pending.off other (by rw [append_nil]; exact absent.1)
    have first : other ≠ lit := fun same => absent.2 (congrArg Lit.var same)
    have second : other ≠ lit.negate := by
      intro same
      have var := congrArg Lit.var same
      exact absent.2 var
    rw [assignAt_litVal, if_neg first, if_neg second]
    refine ⟨value, ?_⟩
    simp only [Trail.assignAt]
    rw [Function.update_of_ne absent.2]
    exact record
  · simp only [Trail.assignAt, trailIndex] at found ⊢
    rw [getElem?_append] at found
    split at found
    · have mem := mem_of_getElem? found
      rw [Function.update_of_ne (ne other mem)]
      exact pending.indexed position other found
    · -- The new literal is at the end.
      rename_i outside
      rw [getElem?_singleton] at found
      split at found
      · cases found
        rw [Function.update_self]
        dsimp only
        omega
      · cases found

theorem Pending.drop {lit : Lit} {rest : List Lit} {record : VarInfo} {after : Trail}
    (pending : Pending trail (lit :: rest)) (unassigned : record.value = none)
    (kept : after.assignments = trail.assignments)
    (values : after.values = eraseValues lit trail.values)
    (records : after.varInfo = Function.update trail.varInfo lit.var record) :
    Pending after rest := by
  have distinct := pending.distinct
  rw [map_append, map_cons, perm_middle.nodup_iff, ← map_append, nodup_cons] at distinct
  have ne : ∀ other ∈ trail.assignments ++ rest, other.var ≠ lit.var :=
    fun other mem same => distinct.1 (same ▸ mem_map_of_mem mem)
  have value : ∀ other : Lit, after.litVal other =
      if other.var = lit.var then 0 else trail.litVal other := by
    intro other
    unfold litVal
    rw [values, eraseValues_code]
  refine ⟨by rw [kept]; exact distinct.2, fun other mem => ?_, fun other absent => ?_,
    fun position other found => ?_⟩
  · rw [kept] at mem
    have other_ := ne other mem
    have lies : other ∈ trail.assignments ++ lit :: rest := by
      rcases mem_append.mp mem with old | later
      · exact mem_append_left _ old
      · exact mem_append_right _ (.tail _ later)
    obtain ⟨true_, false_, record_⟩ := pending.on other lies
    rw [value, value, if_neg other_, if_neg (by rwa [Lit.negate_var]), records,
      Function.update_of_ne other_]
    exact ⟨true_, false_, record_⟩
  · rw [kept] at absent
    rw [value, records]
    by_cases same : other.var = lit.var
    · rw [if_pos same, same, Function.update_self]
      exact ⟨rfl, unassigned⟩
    · rw [if_neg same, Function.update_of_ne same]
      refine pending.off other fun mem => ?_
      rw [map_append, mem_append, map_cons, mem_cons] at mem
      rw [map_append, mem_append] at absent
      tauto
  · rw [kept] at found
    have mem := mem_of_getElem? found
    unfold trailIndex
    rw [records, Function.update_of_ne (ne other (mem_append_left _ mem))]
    exact pending.indexed position other found

theorem Pending.keep {lit : Lit} {rest : List Lit} (pending : Pending trail (lit :: rest)) : Pending
      { trail with
        assignments := trail.assignments ++ [lit]
        varInfo := Function.update trail.varInfo lit.var
          { trail.varInfo lit.var with trailIdx := trail.assignments.length } } rest := by
  have same : (trail.assignments ++ [lit]) ++ rest = trail.assignments ++ lit :: rest := by simp
  have value : ∀ var, (Function.update trail.varInfo lit.var
      { trail.varInfo lit.var with trailIdx := trail.assignments.length } var).value =
        (trail.varInfo var).value := by
    intro var
    by_cases here : var = lit.var
    · subst here
      rw [Function.update_self]
    · rw [Function.update_of_ne here]
  refine ⟨by rw [same]; exact pending.distinct, fun other mem => ?_, fun other absent => ?_,
    fun position other found => ?_⟩
  · rw [same] at mem
    obtain ⟨true_, false_, record⟩ := pending.on other mem
    exact ⟨true_, false_, (value _).trans record⟩
  · rw [same] at absent
    obtain ⟨undefined, record⟩ := pending.off other absent
    exact ⟨undefined, (value _).trans record⟩
  · unfold trailIndex
    dsimp only at found ⊢
    rw [getElem?_append] at found
    split at found
    · -- An older literal has another variable.
      have mem := mem_of_getElem? found
      have distinct := pending.distinct
      rw [map_append, map_cons, nodup_append] at distinct
      have ne : other.var ≠ lit.var := distinct.2.2 _ (mem_map_of_mem mem) _ (.head _)
      rw [Function.update_of_ne ne]
      exact pending.indexed position other found
    · rw [getElem?_singleton] at found
      split at found
      · cases found
        rw [Function.update_self]
        dsimp only
        omega
      · cases found

end

section

variable {trail : Trail}

/-- What every trail that calls reach satisfies. -/
structure Inv (trail : Trail) : Prop where
  fits : Pending trail []
  levels : ∀ lit ∈ trail.assignments, trail.level lit.var ≤ trail.currentLevel
  starts : trail.levelStarts.length = trail.currentLevel + 1
  origin : trail.levelStarts[0]? = some 0
  sorted : trail.levelStarts.Pairwise (· ≤ ·)
  within : ∀ start ∈ trail.levelStarts, start ≤ trail.assignments.length
  below : ∀ level start : Nat, trail.levelStarts[level]? = some start → ∀ position < start, ∀ lit,
    trail.assignments[position]? = some lit → trail.level lit.var < level

theorem inv_new : Inv Trail.new where
  fits := ⟨by simp [new], by simp [new],
    fun _ _ => ⟨rfl, rfl⟩, fun _ _ found => nomatch found⟩
  levels := fun _ mem => nomatch mem
  starts := rfl
  origin := rfl
  sorted := by simp [new]
  within := by simp [new]
  below := by
    intro level start found position lies
    unfold new at found
    rw [getElem?_singleton] at found
    split at found
    · cases found
      omega
    · cases found

theorem Inv.newDecisionLevel (inv : Inv trail) : Inv trail.newDecisionLevel where
  fits := { inv.fits with }
  levels := fun lit mem => (inv.levels lit mem).trans (Nat.le_succ _)
  starts := by simp [Trail.newDecisionLevel, inv.starts]
  origin := by
    unfold Trail.newDecisionLevel
    rw [getElem?_append_left (by rw [inv.starts]; omega)]
    exact inv.origin
  sorted := by
    unfold Trail.newDecisionLevel
    refine pairwise_append.mpr ⟨inv.sorted, by simp, fun start mem last same => ?_⟩
    rw [mem_singleton.mp same]
    exact inv.within start mem
  within := by
    intro start mem
    rcases mem_append.mp mem with old | last
    · exact inv.within start old
    · exact (mem_singleton.mp last).le
  below := by
    intro level start found position lies lit here
    unfold Trail.newDecisionLevel at found
    rw [getElem?_append] at found
    split at found
    · exact inv.below level start found position lies lit here
    · -- Every literal is before the start of the new level.
      rename_i outside
      have bound := inv.levels lit (mem_of_getElem? here)
      rw [inv.starts] at outside
      show trail.level lit.var < level
      omega

theorem Inv.assignAt (inv : Inv trail) {lit : Lit} (reason : Reason) {level : Nat}
    (unassigned : trail.isAssigned lit.var = false) (bound : level ≤ trail.currentLevel) :
    Inv (trail.assignAt lit reason level) := by
  have fresh := inv.fits.fresh unassigned
  have recorded : ∀ other ∈ trail.assignments,
      (trail.assignAt lit reason level).level other.var = trail.level other.var := by
    intro other mem
    have ne : other.var ≠ lit.var := by
      intro same
      rw [← same] at fresh
      exact fresh (mem_map_of_mem mem)
    unfold Trail.level Trail.assignAt
    dsimp only
    rw [Function.update_of_ne ne]
  refine ⟨inv.fits.assignAt fresh reason level, fun other mem => ?_, inv.starts, inv.origin,
    inv.sorted, fun start mem => ?_, fun level' start found position lies other here => ?_⟩
  · rcases mem_append.mp mem with old | last
    · rw [recorded other old]
      exact inv.levels other old
    · rw [mem_singleton.mp last]
      unfold Trail.level Trail.assignAt
      dsimp only
      rw [Function.update_self]
      exact bound
  · have old := inv.within start mem
    unfold Trail.assignAt
    rw [length_append]
    omega
  · -- The start of a level is within the old trail.
    have old := inv.within start (mem_of_getElem? found)
    unfold Trail.assignAt at here
    rw [getElem?_append_left (by omega)] at here
    rw [recorded other (mem_of_getElem? here)]
    exact inv.below level' start found position lies other here

theorem unassign_all : ∀ {rest : List Lit} {trail : Trail}, Pending trail rest →
    Pending (rest.foldl unassignValue trail) [] ∧
      (rest.foldl unassignValue trail).assignments = trail.assignments ∧
      ∀ var, (rest.foldl unassignValue trail).level var = trail.level var := by
  intro rest
  induction rest with
  | nil => exact fun pending => ⟨pending, rfl, fun _ => rfl⟩
  | cons lit later ih =>
    intro trail pending
    have step : Pending (trail.unassignValue lit) later := pending.drop rfl rfl rfl rfl
    obtain ⟨fits, same, levels⟩ := ih step
    refine ⟨fits, same, fun var => (levels var).trans ?_⟩
    unfold level unassignValue
    by_cases here : var = lit.var
    · subst here
      dsimp only
      rw [Function.update_self]
    · dsimp only
      rw [Function.update_of_ne here]

theorem Pending.split (pending : Pending trail []) (size : Nat) {rest : List Lit}
    (perm : rest.Perm (trail.assignments.drop size)) :
    Pending { trail with assignments := trail.assignments.take size } rest := by
  have whole : (trail.assignments.take size ++ rest).Perm trail.assignments := by
    have parts := perm.append_left (trail.assignments.take size)
    rwa [take_append_drop] at parts
  have vars := whole.map Lit.var
  refine ⟨?_, fun lit mem => ?_, fun lit absent => ?_, fun position lit found => ?_⟩
  · have distinct := pending.distinct
    rw [append_nil] at distinct
    exact vars.nodup_iff.mpr distinct
  · exact pending.on lit (by rw [append_nil]; exact whole.mem_iff.mp mem)
  · refine pending.off lit fun mem => absent (vars.mem_iff.mpr ?_)
    rwa [append_nil] at mem
  · dsimp only at found
    rw [getElem?_take] at found
    split at found
    · exact pending.indexed position lit found
    · cases found

theorem Inv.backtrackToSize (inv : Inv trail) {size : Nat}
    (facts : ∀ lit ∈ trail.assignments.take size, trail.level lit.var = 0) :
    Inv (trail.backtrackToSize size) := by
  have pending := inv.fits.split size (reverse_perm (trail.assignments.drop size))
  obtain ⟨fits, same, levels⟩ := unassign_all pending
  have first : trail.levelStarts.take 1 = [0] := by
    have origin := inv.origin
    cases starts : trail.levelStarts with
    | nil => simp [starts] at origin
    | cons start rest => simpa [starts] using origin
  unfold Trail.backtrackToSize
  refine ⟨{ fits with }, fun lit mem => ?_, ?_, ?_, ?_,
    fun start mem => ?_, fun level start found position lies => ?_⟩
  · dsimp only at mem
    rw [same] at mem
    exact ((levels lit.var).trans (facts lit mem)).le
  · simp [first]
  · simp [first]
  · simp [first]
  · rw [first, mem_singleton] at mem
    omega
  · -- The only level that is left starts at the beginning.
    rw [first, getElem?_singleton] at found
    split at found
    · cases found
      omega
    · cases found

theorem Inv.clear (inv : Inv trail) : Inv trail.clear := by
  have pending := @Pending.split _ inv.fits 0 trail.assignments (by simp)
  rw [take_zero] at pending
  obtain ⟨fits, same, -⟩ := unassign_all pending
  unfold Trail.clear
  refine ⟨{ fits with }, fun lit mem => ?_, rfl, rfl,
    by simp, fun start mem => ?_, fun level start found position lies => ?_⟩
  · dsimp only at mem
    rw [same] at mem
    cases mem
  · rw [mem_singleton] at mem
    omega
  · rw [getElem?_singleton] at found
    split at found
    · cases found
      omega
    · cases found

theorem filter_eq (level : Nat) : ∀ {rest : List Lit} {trail : Trail}, Pending trail rest →
    Pending (rest.foldl (filterStep level) trail) [] ∧
      (rest.foldl (filterStep level) trail).assignments =
        trail.assignments ++ rest.filter (fun lit => decide (trail.level lit.var ≤ level)) ∧
      ∀ lit ∈ (rest.foldl (filterStep level) trail).assignments,
        (rest.foldl (filterStep level) trail).level lit.var = trail.level lit.var ∧
          ((rest.foldl (filterStep level) trail).varInfo lit.var).reason =
            (trail.varInfo lit.var).reason := by
  intro rest
  induction rest with
  | nil => exact fun pending => ⟨pending, by simp, fun _ _ => ⟨rfl, rfl⟩⟩
  | cons lit later ih =>
    intro trail pending
    have distinct := pending.distinct
    rw [map_append, map_cons, nodup_append] at distinct
    -- Neither the kept literals nor the later ones have the variable of this literal.
    have before : ∀ other ∈ trail.assignments, other.var ≠ lit.var := fun other mem =>
      distinct.2.2 _ (mem_map_of_mem mem) _ (.head _)
    have after : ∀ other ∈ later, other.var ≠ lit.var := by
      intro other mem same
      exact (nodup_cons.mp distinct.2.1).1 (same ▸ mem_map_of_mem mem)
    rw [foldl_cons]
    by_cases high : (trail.varInfo lit.var).level > level
    · -- The literal is unassigned.
      have step : filterStep level trail lit = { trail with
          values := eraseValues lit trail.values
          varInfo := Function.update trail.varInfo lit.var .default } := if_pos high
      have dropped : Pending (filterStep level trail lit) later := by
        rw [step]
        exact pending.drop rfl rfl rfl rfl
      have record : ∀ {other : Lit}, other.var ≠ lit.var →
          (filterStep level trail lit).varInfo other.var = trail.varInfo other.var := by
        intro other apart
        rw [step]
        exact Function.update_of_ne apart _ _
      obtain ⟨fits, appended, same⟩ := ih dropped
      have low : ¬ trail.level lit.var ≤ level := Nat.not_le.mpr high
      have kept : later.filter (fun other => decide ((filterStep level trail lit).level other.var ≤ level))
          = later.filter (fun other => decide (trail.level other.var ≤ level)) := by
        refine filter_congr fun other mem => ?_
        unfold Trail.level
        rw [record (after other mem)]
      have assignments : (filterStep level trail lit).assignments = trail.assignments := by rw [step]
      rw [assignments, kept] at appended
      refine ⟨fits, by rw [appended, filter_cons, if_neg (by simpa using low)],
        fun other mem => ?_⟩
      have apart : other.var ≠ lit.var := by
        rw [appended] at mem
        rcases mem_append.mp mem with old | new
        · exact before other old
        · exact after other (mem_filter.mp new).1
      obtain ⟨level_, reason⟩ := same other mem
      have unchanged := record apart
      exact ⟨level_.trans (congrArg VarInfo.level unchanged),
        reason.trans (congrArg VarInfo.reason unchanged)⟩
    · -- The literal moves down behind the kept ones.
      have step : filterStep level trail lit = { trail with
          assignments := trail.assignments ++ [lit]
          varInfo := Function.update trail.varInfo lit.var
            { trail.varInfo lit.var with trailIdx := trail.assignments.length } } := if_neg high
      have kept : Pending (filterStep level trail lit) later := by
        rw [step]
        exact pending.keep
      have record : ∀ var, (filterStep level trail lit).level var = trail.level var ∧
          ((filterStep level trail lit).varInfo var).reason = (trail.varInfo var).reason := by
        intro var
        rw [step]
        unfold Trail.level
        dsimp only
        by_cases here : var = lit.var
        · subst here
          rw [Function.update_self]
          exact ⟨rfl, rfl⟩
        · rw [Function.update_of_ne here]
          exact ⟨rfl, rfl⟩
      obtain ⟨fits, appended, same⟩ := ih kept
      have low : trail.level lit.var ≤ level := Nat.le_of_not_lt high
      have assignments : (filterStep level trail lit).assignments = trail.assignments ++ [lit] := by
        rw [step]
      have filtered : later.filter
          (fun other => decide ((filterStep level trail lit).level other.var ≤ level))
          = later.filter (fun other => decide (trail.level other.var ≤ level)) := by
        refine filter_congr fun other _ => ?_
        rw [(record other.var).1]
      rw [assignments, filtered] at appended
      refine ⟨fits, by rw [appended, filter_cons, if_pos (by simpa using low)]; simp,
        fun other mem => ?_⟩
      obtain ⟨level_, reason⟩ := same other mem
      exact ⟨level_.trans (record _).1, reason.trans (record _).2⟩

theorem Inv.levelStart (inv : Inv trail) {level : Nat} (bound : level ≤ trail.currentLevel) :
    trail.levelStarts[level]? = some (trail.levelStart level) := by
  have lies : level < trail.levelStarts.length := by
    rw [inv.starts]
    omega
  rw [Trail.levelStart, getElem?_eq_getElem lies, Option.getD_some]

theorem Inv.low_take (inv : Inv trail) {level boundary : Nat}
    (start : trail.levelStarts[level + 1]? = some boundary) :
    ∀ lit ∈ trail.assignments.take boundary, trail.level lit.var ≤ level := by
  intro lit mem
  obtain ⟨position, found⟩ := getElem?_of_mem mem
  rw [getElem?_take] at found
  split at found
  · rename_i before
    exact Nat.le_of_lt_succ (inv.below (level + 1) boundary start position before lit found)
  · cases found

theorem Inv.backtrackTo (inv : Inv trail) (level : Nat) : Inv (trail.backtrackTo level) := by
  unfold Trail.backtrackTo
  split
  · exact inv
  · rename_i lower
    -- The boundary is the start of the next level.
    have start : trail.levelStarts[level + 1]? = _ :=
      inv.levelStart (Nat.succ_le_of_lt (Nat.not_le.mp lower))
    have lies := inv.within _ (mem_of_getElem? start)
    generalize trail.levelStart (level + 1) = boundary at start lies
    have low := inv.low_take start
    obtain ⟨fits, same, records⟩ := filter_eq level (inv.fits.split boundary (List.Perm.refl _))
    dsimp only at same records ⊢
    have prefix_ : ∀ {level' start' : Nat}, (trail.levelStarts.take (level + 1))[level']? = some start' →
        trail.levelStarts[level']? = some start' ∧ start' ≤ boundary := by
      intro level' start' found
      rw [getElem?_take] at found
      split at found
      · rename_i small
        refine ⟨found, ?_⟩
        obtain ⟨first, first_eq⟩ := List.getElem?_eq_some_iff.mp found
        obtain ⟨second, second_eq⟩ := List.getElem?_eq_some_iff.mp start
        have order := pairwise_iff_getElem.mp inv.sorted level' (level + 1) first second small
        omega
      · cases found
    refine ⟨{ fits with }, fun lit mem => ?_, ?_, ?_,
      inv.sorted.sublist (take_sublist _ _), fun start' mem => ?_,
      fun level' start' found position before lit here => ?_⟩
    · refine (records lit mem).1.trans_le ?_
      dsimp only at mem
      rw [same] at mem
      rcases mem_append.mp mem with old | new
      · exact low lit old
      · simpa using (mem_filter.mp new).2
    · rw [length_take, inv.starts]
      dsimp only
      omega
    · rw [getElem?_take, if_pos (Nat.succ_pos level)]
      exact inv.origin
    · obtain ⟨level', found⟩ := getElem?_of_mem mem
      dsimp only
      rw [same, length_append, length_take]
      have small := (prefix_ found).2
      omega
    · -- Positions before an old start hold old literals with their old levels.
      obtain ⟨found', small⟩ := prefix_ found
      dsimp only at here
      rw [same, getElem?_append_left (by rw [length_take]; omega)] at here
      have unchanged := (records lit
        (same ▸ mem_append_left _ (mem_of_getElem? here))).1
      rw [getElem?_take, if_pos (by omega)] at here
      show Trail.level _ lit.var < level'
      have old := inv.below level' start' found' position before lit here
      exact unchanged.trans_lt old

theorem Inv.propHead (inv : Inv trail) (head : Nat) : Inv { trail with propHead := head } :=
  ⟨{ inv.fits with }, inv.levels, inv.starts,
    inv.origin, inv.sorted, inv.within, inv.below⟩

theorem Inv.apply (inv : Inv trail) {op : Op} (permitted : Allowed trail op) :
    Inv (trail.apply op) := by
  cases op with
  | newDecisionLevel => exact inv.newDecisionLevel
  | assign lit reason => exact inv.assignAt reason permitted le_rfl
  | assignAt lit reason level => exact inv.assignAt reason permitted.1 permitted.2
  | backtrackTo level => exact inv.backtrackTo level
  | backtrackToSize size => exact inv.backtrackToSize permitted
  | clear => exact inv.clear
  | nextToPropagate =>
    show Inv trail.nextToPropagate.1
    unfold nextToPropagate
    split
    · exact inv.propHead _
    · exact inv
  | requeueLastPropagated => exact inv.propHead _
  | resetPropagationHead => exact inv.propHead _

theorem Reachable.inv (reachable : Reachable Allowed trail) : Inv trail := by
  induction reachable with
  | new => exact inv_new
  | step _ _ permitted ih => exact ih.apply permitted

theorem Inv.represents (inv : Inv trail) : Represents trail := by
  have distinct := inv.fits.distinct
  have on := inv.fits.on
  have off := inv.fits.off
  rw [append_nil] at distinct on off
  -- A literal that is not on the trail is undefined, or its negation is on the trail.
  have absent : ∀ {lit : Lit}, lit ∉ trail.assignments →
      lit.negate ∈ trail.assignments ∨ lit.var ∉ trail.assignments.map Lit.var := by
    intro lit missing
    by_cases occurs : lit.var ∈ trail.assignments.map Lit.var
    · obtain ⟨other, mem, same⟩ := mem_map.mp occurs
      rcases Lit.eq_or_negate same with rfl | rfl
      · exact absurd mem missing
      · exact .inl mem
    · exact .inr occurs
  have onTrail : ∀ lit, lit ∈ trail.assignments ↔ trail.litVal lit = 1 := by
    intro lit
    refine ⟨fun mem => (on lit mem).1, fun value => ?_⟩
    by_contra missing
    rcases absent missing with flipped | undefined
    · have false_ := (on _ flipped).2.1
      rw [Lit.negate_negate, value] at false_
      cases false_
    · rw [(off lit undefined).1] at value
      cases value
  refine ⟨onTrail, fun lit => ⟨fun mem => (on lit mem).2.2, fun record => ?_⟩, fun lit => ?_,
    distinct, inv.fits.indexed, inv.levels, inv.starts, inv.sorted, inv.within⟩
  · by_contra missing
    rcases absent missing with flipped | undefined
    · have other := (on _ flipped).2.2
      rw [Lit.negate_var, record] at other
      simp at other
    · rw [(off lit undefined).2] at record
      cases record
  · rw [← onTrail]
    constructor
    · intro value
      by_contra missing
      rcases absent missing with flipped | undefined
      · rw [Lit.negate_negate] at flipped
        rw [(on _ flipped).1] at value
        cases value
      · rw [(off lit undefined).1] at value
        cases value
    · intro mem
      have flipped := (on _ mem).2.1
      rwa [Lit.negate_negate] at flipped

/-- Calls that their callers permit keep the representation. -/
theorem reachable_represents (reachable : Reachable Allowed trail) : Represents trail :=
  reachable.inv.represents

end

section

/-- A literal recorded below the current level survives backtracking past its position. -/
def outOfOrder : List Op :=
  [.newDecisionLevel, .assign (Lit.pos 0) .decision, .newDecisionLevel,
    .assign (Lit.pos 1) .decision, .assignAt (Lit.neg 2) (.propagation 0) 1, .backtrackTo 1]

def applyAll (trail : Trail) (ops : List Op) : Trail := ops.foldl apply trail

/-- The trail after backtracking with an out-of-order literal is represented. -/
theorem outOfOrder_represents : Represents (applyAll Trail.new outOfOrder) := by
  have first := @Reachable.step Allowed _ .new .newDecisionLevel trivial
  have second := first.step (.assign (Lit.pos 0) .decision) rfl
  have third := second.step .newDecisionLevel trivial
  have fourth := third.step (.assign (Lit.pos 1) .decision) rfl
  have fifth := fourth.step (.assignAt (Lit.neg 2) (.propagation 0) 1) ⟨rfl, by decide⟩
  exact reachable_represents (fifth.step (.backtrackTo 1) trivial)

/-- Cutting to a size above the level-zero facts leaves a level above the current one. -/
theorem staleLevel_not_represents : ¬ ∀ ops, Represents (applyAll Trail.new ops) := by
  intro always
  have levels := (always [.newDecisionLevel, .assign (Lit.pos 0) .decision,
    .backtrackToSize 1]).levels (Lit.pos 0) (by decide)
  exact absurd levels (by decide)

end

end Trail

end Nixie.Sat
