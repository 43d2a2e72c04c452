import Mathlib.Data.List.Permutation
import Nixie.Sat.Congruence

/-! Which exclusive disjunctions among the ternary clauses gate detection finds. -/

namespace Nixie.Sat

open List

/-- Live clauses in order with their learned flags; the permanent ones entail the learned ones. -/
structure GateDb where
  clauses : List (Clause × Bool)
  derived : ∀ m, Models m ((clauses.filter fun entry => !entry.2).map Prod.fst) →
    Models m (clauses.map Prod.fst)

def GateDb.live (db : GateDb) : Cnf := db.clauses.map Prod.fst

def GateDb.irredundant (db : GateDb) : Cnf := (db.clauses.filter fun entry => !entry.2).map Prod.fst

def Gate.lits (gate : Gate) : Triple := (gate.out, gate.in1, gate.in2)

namespace Triple

def lits (triple : Triple) : List Lit := [triple.1, triple.2.1, triple.2.2]

def vars (triple : Triple) : List Nat := (lits triple).map Lit.var

def parity (triple : Triple) : Nat := (lits triple).countP Lit.isNeg % 2

end Triple

open Triple

variable {formula : Cnf} {triple other : Triple}

end Nixie.Sat
