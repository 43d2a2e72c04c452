import Mathlib.Data.Rat.Floor
import Nixie.Opt.Totalizer

/-! The MaxSAT solver: weighted soft clauses, and the search for the least number of violations. -/

namespace Nixie.Opt

inductive Weight where
  | int (n : Int)
  | rational (r : ℚ)
  | infinite
  deriving Repr

namespace Weight

def value : Weight → Option ℚ
  | int n => some n
  | rational r => some r
  | infinite => none

/-- Weights are compared by number, however it is written. -/
def same (a b : Weight) : Bool := decide (a.value = b.value)

def zero : Weight := .int 0

def add : Weight → Weight → Weight
  | infinite, _ | _, infinite => infinite
  | int a, int b => int (a + b)
  | rational a, rational b => rational (a + b)
  | int a, rational b => rational (a + b)
  | rational a, int b => rational (b + a)

def min (a b : Weight) : Weight :=
  match a.value, b.value with
  | none, _ => b
  | some _, none => a
  | some x, some y => if x ≤ y then a else b

def mulScalar (w : Weight) (scalar : Int) : Weight :=
  if scalar ≤ 0 then zero
  else
    match w with
    | infinite => infinite
    | int n => int (n * scalar)
    | rational r => rational (r * scalar)

end Weight

/-- A soft clause. -/
structure SoftClause where
  id : Nat
  lits : Clause
  weight : Weight
  /-- Whether the best model satisfies it, once there is one. -/
  value : Option Bool
  deriving Repr

inductive MaxSatAlgorithm where
  | fuMalik
  | oll
  | msu3
  | wmax
  | pmres
  deriving DecidableEq, Repr

/-- The configuration that solving reads. -/
structure MaxSatConfig where
  /-- Bound on the rounds of the core-guided loop. -/
  maxIterations : Nat
  stratified : Bool
  algorithm : MaxSatAlgorithm
  deriving Repr

/-- The values that a model gives to the variables, of which some may have none. -/
abbrev PartialModel := List (Option Bool)

/-- The solver state that solving reads and writes. -/
structure MaxSatSolver where
  hardClauses : Cnf
  /-- Soft clauses; the number of a clause is its position. -/
  softClauses : List SoftClause
  config : MaxSatConfig
  lowerBound : Weight
  upperBound : Weight
  bestModel : Option PartialModel
  relaxToSoft : Lit → Option Nat

inductive MaxSatResult where
  | optimal
  | unknown
  | unsatisfiable
  deriving DecidableEq, Repr

inductive Verdict where
  | sat (model : PartialModel)
  | unsat
  | unknown
  deriving DecidableEq, Repr

/-- The literal has a value in the model, and it is the one that makes it true. -/
def trueIn (model : PartialModel) (lit : Lit) : Bool := model[lit.var]?.join == some !lit.isNeg

namespace MaxSatSolver

def withConfig (config : MaxSatConfig) : MaxSatSolver where
  hardClauses := []
  softClauses := []
  config := config
  lowerBound := .zero
  upperBound := .infinite
  bestModel := none
  relaxToSoft := fun _ => none

def addHard (s : MaxSatSolver) (lits : Clause) : MaxSatSolver :=
  { s with hardClauses := s.hardClauses ++ [lits] }

def addSoftWeighted (s : MaxSatSolver) (lits : Clause) (weight : Weight) : MaxSatSolver :=
  { s with
    softClauses := s.softClauses ++ [⟨s.softClauses.length, lits, weight, none⟩]
    upperBound := s.upperBound.add weight }

def cost (s : MaxSatSolver) : Weight := s.lowerBound

def hasDifferentWeights (s : MaxSatSolver) : Bool :=
  match s.softClauses with
  | [] => false
  | first :: _ => s.softClauses.any fun c => !c.weight.same first.weight

def updateSoftValues (s : MaxSatSolver) : MaxSatSolver :=
  match s.bestModel with
  | none => s
  | some model => { s with
      softClauses := s.softClauses.map fun c => { c with value := some (c.lits.any (trueIn model)) } }

def keepModel (s : MaxSatSolver) (model : PartialModel) : MaxSatSolver :=
  updateSoftValues { s with bestModel := some model }

def checkHardSatisfiable (sat : Cnf → Verdict) (s : MaxSatSolver) : MaxSatResult × MaxSatSolver :=
  match sat s.hardClauses with
  | .sat model =>
    let s := s.keepModel model
    (.optimal, { s with upperBound := s.lowerBound })
  | .unsat => (.unsatisfiable, s)
  | .unknown => (.unknown, s)

/-- Solve the hard clauses with the soft clauses of infinite weight. -/
def solveHardOnlyWithExtra (sat : Cnf → Verdict) (s : MaxSatSolver) (extraHard : Cnf) :
    MaxSatResult × MaxSatSolver :=
  match sat (s.hardClauses ++ extraHard) with
  | .sat model => (.optimal, s.keepModel model)
  | .unsat => (.unsatisfiable, s)
  | .unknown => (.unknown, s)

def bigintGcd (a b : Int) : Int :=
  if b = 0 then a else bigintGcd b (a.tmod b)
  termination_by b.natAbs
  decreasing_by
    rw [Int.natAbs_tmod]
    exact Nat.mod_lt _ (by omega)

def bigintLcm (a b : Int) : Int :=
  if a = 0 ∨ b = 0 then 0 else a.tdiv (bigintGcd a b) * b

def maxWeightDuplicates : Int := 200000

def normalizeWeight (r : ℚ) : Weight := if r.den = 1 then .int r.num else .rational r

def weightScale (softs : List SoftClause) : Int :=
  softs.foldl (fun scale c =>
    match c.weight with
    | .rational r => bigintLcm scale r.den
    | _ => scale) 1

def infiniteClauses (softs : List SoftClause) : Cnf :=
  softs.filterMap fun c =>
    match c.weight with
    | .infinite => some c.lits
    | _ => none

/-- Soft clauses of finite weight, with the weights scaled to integers. -/
def scaledClauses (scale : Int) (softs : List SoftClause) : List (Nat × Clause × Int) :=
  softs.filterMap fun c =>
    match c.weight with
    | .infinite => none
    | .int n => some (c.id, c.lits, n * scale)
    | .rational r => some (c.id, c.lits, r.num * scale.tdiv r.den)

/-- Greatest common divisor of the scaled weights that are not zero. -/
def weightUnit (finite : List (Nat × Clause × Int)) : Int :=
  finite.foldl (fun unit item => if item.2.2 ≠ 0 then bigintGcd unit item.2.2 else unit) 0

def totalDuplicates (finite : List (Nat × Clause × Int)) (unit : Int) : Int :=
  finite.foldl (fun total item => total + item.2.2.tdiv unit) 0

/-- Every soft clause as often as its weight has units. -/
def unitItems (finite : List (Nat × Clause × Int)) (unit : Int) : List (Nat × Clause) :=
  finite.flatMap fun item =>
    List.replicate (item.2.2.tdiv unit).toNat (item.1, item.2.1)

def freshVar (formula : Cnf) : Nat :=
  formula.foldl (fun next clause => clause.foldl (fun next lit => max next (lit.var + 1)) next) 0

/-- The clauses of one bound: items may be violated at the price of their variables. -/
def cardinalityClauses (hard extraHard : Cnf) (items : List (Nat × Clause)) (violated : List Nat)
    (totalizerClauses : Cnf) (atMost : Option Lit) : Cnf :=
  hard ++ extraHard ++
    (items.zip violated).map (fun pair => pair.1.2 ++ [Lit.pos pair.2]) ++
    totalizerClauses ++ atMost.toList.map fun lit => [lit]

/-- The totalizer with the clauses that were taken from it. -/
structure Search where
  totalizer : Totalizer
  clauses : Cnf
  deriving Repr

/-- Encode up to a bound, take the clauses, and return the literal for at most so many. -/
def Search.bound (search : Search) (k : Nat) : Option Lit × Search :=
  let totalizer := (search.totalizer.ensureBound (k + 1)).2
  let (clauses, totalizer) := totalizer.takeClauses
  (totalizer.atMost k, ⟨totalizer, search.clauses ++ clauses⟩)

/-- Halve the interval until it is one number; none where an answer is unknown. -/
def bisect (check : Cnf → Option Lit → Verdict) : Nat → Nat → Nat → Search → Option (Nat × Search)
  | 0, lo, _, search => some (lo, search)
  | fuel + 1, lo, hi, search =>
    if lo < hi then
      let mid := lo + (hi - lo) / 2
      let (atMost, search) := search.bound mid
      match check search.clauses atMost with
      | .sat _ => bisect check fuel lo mid search
      | .unsat => bisect check fuel (mid + 1) hi search
      | .unknown => none
    else some (lo, search)

def asI64 (n : Nat) : Int := (n : Int).bmod (2 ^ 64)

/-- Find the least number of items that must be violated, and report its cost. -/
def solveByCardinalitySearch (sat : Cnf → Verdict) (s : MaxSatSolver)
    (items : List (Nat × Clause)) (extraHard : Cnf) (unitCost : Weight) :
    MaxSatResult × MaxSatSolver :=
  let nextVar := freshVar (s.hardClauses ++ extraHard ++ items.map Prod.snd)
  let violated := (List.range items.length).map (nextVar + ·)
  let s := { s with
    relaxToSoft := (items.zip violated).foldl
      (fun map pair => Function.update map (Lit.pos pair.2) (some pair.1.1)) s.relaxToSoft }
  let check := fun clauses atMost =>
    sat (cardinalityClauses s.hardClauses extraHard items violated clauses atMost)
  -- With every violation allowed only the hard clauses count.
  match check [] none with
  | .unsat => (.unsatisfiable, s)
  | .unknown => (.unknown, s)
  | .sat _ =>
    let totalizer := Totalizer.new (violated.map Lit.pos) (nextVar + items.length)
    match bisect check items.length 0 items.length ⟨totalizer, []⟩ with
    | none => (.unknown, s)
    | some (kMin, search) =>
      -- The model is that of one more check at the least bound.
      let (atMost, search) :=
        if kMin < items.length then search.bound kMin else (none, search)
      match check search.clauses atMost with
      | .sat model =>
        let s := s.keepModel model
        (.optimal, { s with lowerBound := s.lowerBound.add (unitCost.mulScalar (asI64 kMin)) })
      | .unsat | .unknown => (.unknown, s)

def solveWeightedCoreGuided (sat : Cnf → Verdict) (s : MaxSatSolver) :
    MaxSatResult × MaxSatSolver :=
  let scale := weightScale s.softClauses
  let extraHard := infiniteClauses s.softClauses
  let finite := scaledClauses scale s.softClauses
  let unit := weightUnit finite
  if unit = 0 then s.solveHardOnlyWithExtra sat extraHard
  else if totalDuplicates finite unit > maxWeightDuplicates then (.unknown, s)
  else
    let items := unitItems finite unit
    if items.isEmpty then s.solveHardOnlyWithExtra sat extraHard
    else s.solveByCardinalitySearch sat items extraHard (normalizeWeight (unit / scale))

def solveFuMalik (sat : Cnf → Verdict) (s : MaxSatSolver) : MaxSatResult × MaxSatSolver :=
  s.solveWeightedCoreGuided sat

def solveMsu3 (sat : Cnf → Verdict) (s : MaxSatSolver) : MaxSatResult × MaxSatSolver :=
  s.solveFuMalik sat

def solvePmres (sat : Cnf → Verdict) (s : MaxSatSolver) : MaxSatResult × MaxSatSolver :=
  s.solveFuMalik sat

def solveWmax (sat : Cnf → Verdict) (s : MaxSatSolver) : MaxSatResult × MaxSatSolver :=
  if s.hasDifferentWeights then s.solveWeightedCoreGuided sat else s.solveFuMalik sat

end MaxSatSolver

end Nixie.Opt
