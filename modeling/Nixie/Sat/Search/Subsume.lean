import Mathlib.Data.List.Perm.Basic
import Nixie.Sat.Search.AddClause

/-! Forward subsumption: clauses that others contain are removed, and literals are resolved away. -/

namespace Nixie.Sat

open List Function Option

def Trail.setReason (trail : Trail) (var : Nat) (reason : Reason) : Trail :=
  { trail with varInfo := update trail.varInfo var { trail.varInfo var with reason } }

namespace Search

namespace Solver

/-- Whether a clause is subject to the reduction of the database. -/
def isLearned (s : Solver) (id : Nat) : Bool := (s.clauses[id]?).any StoredClause.learned

def clearLearned (s : Solver) (id : Nat) : Solver :=
  { s with clauses := s.clauses.modify id fun clause => { clause with learned := false } }

def purgeBinaryEdges (s : Solver) (id : Nat) : Solver :=
  match s.liveLits id with
  | some [a, b] =>
      let first := update s.binaryGraph a.negate ((s.binaryGraph a.negate).filter fun e => e.2 ≠ id)
      { s with binaryGraph := update first b.negate ((first b.negate).filter fun e => e.2 ≠ id) }
  | _ => s

/-- Make a clause the reason of none of its literals. -/
def releaseReasons (s : Solver) (id : Nat) : Solver :=
  { s with trail := ((s.liveLits id).getD []).foldl (fun trail lit =>
      if trail.isAssigned lit.var && (trail.varInfo lit.var).reason == .propagation id then
        trail.setReason lit.var .decision
      else trail) s.trail }

/-- Retire a clause; its watchers leave their lists when they are visited. -/
def retireClause (s : Solver) (id : Nat) : Solver :=
  let s := (s.purgeBinaryEdges id).releaseReasons id
  { s with clauses := s.clauses.modify id fun clause => { clause with deleted := true } }

/-- Write a reordered part of its literals back to a long clause, and watch the first two. -/
def rewatch (s : Solver) (id : Nat) (lits : Clause) : Solver :=
  match watchOrder s.trail lits with
  | l0 :: l1 :: rest =>
      let t := ((s.detach id).setLits id (l0 :: l1 :: rest)).attachWatchers id l0 l1
      { t with trail := t.trail.resetPropagationHead }
  | _ => s

/-- Drop a literal of a long clause and choose its watches anew. -/
def removeLiteral (s : Solver) (id idx : Nat) : Solver :=
  match s.liveLits id with
  | some lits => if 2 < lits.length ∧ idx < lits.length then s.rewatch id (lits.eraseIdx idx) else s
  | none => s

end Solver

inductive SubCheck where
  | subsumed (subsumer : Nat)
  /-- All but one occur, and that one occurs complemented. -/
  | strengthen (remove : Lit) (subsumer : Nat)
  deriving DecidableEq, Repr

/-- What a round reads besides the database. -/
structure SubsumeConfig where
  /-- Whether the formula is known to be unsatisfiable. -/
  triviallyUnsat : Bool
  propagations : Nat
  /-- Learned clauses whose tier or glue makes it likely that they are kept. -/
  likelyKept : Nat → Bool
  /-- Whether learned clauses subsume one another with promotion. -/
  nopromote : Bool
  /-- Whether the proof, if one is written, can take the resolution of two clauses. -/
  emitted : Nat → Nat → Bool

/-- Signed marks: one for a literal of the clause, minus one for its complement. -/
def mark (lits : Clause) : Lit → Int :=
  lits.foldl (fun mark lit => update (update mark lit 1) lit.negate (-1)) fun _ => 0

/-- Compare the literals of a clause with the marks; none where it fails. -/
def matchMarks (mark : Lit → Int) : Option Lit → Clause → Option (Option Lit)
  | flipped, [] => some flipped
  | flipped, lit :: rest =>
    if mark lit = 0 then none
    else if mark lit > 0 then matchMarks mark flipped rest
    else if flipped.isSome then none
    else matchMarks mark (some lit) rest

namespace Solver

def checkEdges (s : Solver) (mark : Lit → Int) : List (Lit × Nat) → Option SubCheck
  | [] => none
  | (other, id) :: rest =>
    if (s.liveLits id).isNone then checkEdges s mark rest
    else if mark other > 0 then some (.subsumed id)
    else if mark other < 0 then some (.strengthen other.negate id)
    else checkEdges s mark rest

/-- Compare with the connected clauses of a literal, and count the comparisons. -/
def checkOccs (s : Solver) (mark : Lit → Int) : List Nat → Nat → Option SubCheck × Nat
  | [], checks => (none, checks)
  | id :: rest, checks =>
    match s.liveLits id with
    | none => checkOccs s mark rest checks
    | some lits =>
      match matchMarks mark none lits with
      | none => checkOccs s mark rest (checks + 1)
      | some none => (some (.subsumed id), checks + 1)
      | some (some lit) => (some (.strengthen lit.negate id), checks + 1)

/-- Compare with the clauses of one literal after the other, within the budget. -/
def checkLits (s : Solver) (mark : Lit → Int) (occs : Lit → List Nat) (budget : Nat) :
    List Lit → Nat → Option SubCheck × Nat
  | [], checks => (none, checks)
  | lit :: rest, checks =>
    match s.checkEdges mark (s.binaryGraph lit.negate) with
    | some found => (some found, checks)
    | none =>
      match s.checkOccs mark (occs lit) checks with
      | (some found, checks) => (some found, checks)
      | (none, checks) =>
        if checks ≥ budget then (none, checks) else checkLits s mark occs budget rest checks

/-- Connect a clause on its literal with the fewest connected clauses. -/
def connect (s : Solver) (occs : Lit → List Nat) (id : Nat) : Lit → List Nat :=
  match s.liveLits id with
  | some (head :: rest) =>
      let least := rest.foldl
        (fun best lit => if (occs lit).length < (occs best).length then lit else best) head
      if (occs least).length ≤ 100 then update occs least (occs least ++ [id]) else occs
  | _ => occs

end Solver

/-- The solver, the connected clauses by literal, and the number of comparisons. -/
structure SubsumeState where
  solver : Solver
  occs : Lit → List Nat
  checks : Nat

namespace SubsumeConfig

variable (config : SubsumeConfig)

def budget (s : Solver) : Nat := min (max config.propagations (2 * max s.numVars 1)) 100000000

def eligible (s : Solver) (id : Nat) : Bool :=
  (s.clauses[id]?).any fun clause =>
    !(clause.deleted || clause.lits.length > 100 || clause.lits.length < 3) &&
      !(clause.learned && !config.likelyKept id) &&
      !clause.lits.any fun lit => s.trail.litVal lit != 0

/-- The eligible clauses in an order of ascending size. -/
def Schedules (s : Solver) (schedule : List Nat) : Prop :=
  schedule.Perm ((List.range s.clauses.length).filter (config.eligible s)) ∧
    schedule.Pairwise fun first second =>
      ((s.liveLits first).getD []).length ≤ ((s.liveLits second).getD []).length

/-- Check one clause against the smaller ones, and connect it unless it goes. -/
def subsumeOne (budget : Nat) (state : SubsumeState) (id : Nat) : SubsumeState :=
  let s := state.solver
  match s.liveLits id with
  | none => state
  | some lits =>
    if lits.length < 3 then state
    else
      match s.checkLits (mark lits) state.occs budget lits state.checks with
      | (some (.subsumed subsumer), checks) =>
        let subsumedLearned := s.isLearned id && !config.nopromote
        let s := if !subsumedLearned && s.isLearned subsumer then s.clearLearned subsumer else s
        { solver := s.retireClause id, occs := state.occs, checks }
      | (some (.strengthen remove subsumer), checks) =>
        let s := if remove ∈ lits && config.emitted id subsumer then
            s.removeLiteral id (lits.idxOf remove)
          else s
        { solver := s, occs := s.connect state.occs id, checks }
      | (none, checks) => { state with occs := s.connect state.occs id, checks }

end SubsumeConfig

namespace Solver

variable {s t : Solver} {m : Assignment}

/-- The assignment satisfies the clauses that are not subject to reduction, and the facts. -/
def Means (s : Solver) (m : Assignment) : Prop :=
  (∀ (id : Nat) (clause : StoredClause), s.clauses[id]? = some clause → clause.deleted = false →
    clause.learned = false → Satisfies m clause.lits) ∧
  ∀ lit ∈ s.trail.assignments, s.trail.level lit.var = 0 → lit.Holds m

/-- Learned clauses follow from the others. -/
def Derived (s : Solver) : Prop :=
  ∀ m, s.Means m → ∀ (id : Nat) (clause : StoredClause), s.clauses[id]? = some clause →
    clause.deleted = false → Satisfies m clause.lits

/-- No live clause is a tautology. -/
def Plain (s : Solver) : Prop :=
  ∀ clause ∈ s.clauses, clause.deleted = false → ∀ lit ∈ clause.lits, lit.negate ∉ clause.lits

/-- An implication of a live clause is that of its two literals. -/
def Edges (s : Solver) : Prop :=
  ∀ {lit implied : Lit} {id lits}, (implied, id) ∈ s.binaryGraph lit → s.liveLits id = some lits →
    lits.Perm [lit.negate, implied]

theorem liveLits_eq_some {id : Nat} {lits : Clause} : s.liveLits id = some lits ↔
    ∃ clause, s.clauses[id]? = some clause ∧ clause.deleted = false ∧ clause.lits = lits := by
  unfold liveLits
  cases found : s.clauses[id]? with
  | none => simp
  | some clause => cases live : clause.deleted <;> simp [live]

theorem means_iff (facts : t.trail.assignments = s.trail.assignments)
    (levels : t.trail.level = s.trail.level)
    (weaker : ∀ m, s.Means m → ∀ (id : Nat) (clause : StoredClause), t.clauses[id]? = some clause →
      clause.deleted = false → Satisfies m clause.lits)
    (stronger : ∀ m, t.Means m → ∀ (id : Nat) (clause : StoredClause), s.clauses[id]? = some clause →
      clause.deleted = false → clause.learned = false → Satisfies m clause.lits) :
    (∀ m, t.Means m ↔ s.Means m) ∧ t.Derived := by
  have same : ∀ m, t.Means m ↔ s.Means m := by
    intro m
    constructor
    · intro means
      refine ⟨stronger m means, ?_⟩
      rw [← facts, ← levels]
      exact means.2
    · intro means
      refine ⟨fun id clause found live _ => weaker m means id clause found live, ?_⟩
      rw [facts, levels]
      exact means.2
  exact ⟨same, fun m means => weaker m ((same m).mp means)⟩

/-- Only the entry of one clause differs. -/
structure Edits (s t : Solver) (id : Nat) (edit : StoredClause → StoredClause) : Prop where
  clauses : t.clauses = s.clauses.modify id edit
  facts : t.trail.assignments = s.trail.assignments
  levels : t.trail.level = s.trail.level

theorem setReason_level (trail : Trail) (var : Nat) (reason : Reason) :
    (trail.setReason var reason).level = trail.level := by
  funext other
  unfold Trail.level Trail.setReason
  by_cases same : other = var
  · subst same
    simp
  · simp [same]

theorem releaseReasons_trail (id : Nat) :
    (s.releaseReasons id).trail.assignments = s.trail.assignments ∧
      (s.releaseReasons id).trail.level = s.trail.level := by
  have all : ∀ (lits : Clause) (trail : Trail), trail.assignments = s.trail.assignments →
      trail.level = s.trail.level →
      (lits.foldl (fun trail lit =>
        if trail.isAssigned lit.var && (trail.varInfo lit.var).reason == .propagation id then
          trail.setReason lit.var .decision
        else trail) trail).assignments = s.trail.assignments ∧
      (lits.foldl (fun trail lit =>
        if trail.isAssigned lit.var && (trail.varInfo lit.var).reason == .propagation id then
          trail.setReason lit.var .decision
        else trail) trail).level = s.trail.level := by
    intro lits
    induction lits with
    | nil => exact fun _ same levels => ⟨same, levels⟩
    | cons lit rest ih =>
      intro trail same levels
      rw [foldl_cons]
      split
      · exact ih _ same ((setReason_level trail _ _).trans levels)
      · exact ih _ same levels
  exact all _ _ rfl rfl

theorem mem_purge {graph : Lit → List (Lit × Nat)} {own other : Lit} {id : Nat} {edge : Lit × Nat}
    (mem : edge ∈ update graph own ((graph own).filter fun e => e.2 ≠ id) other) :
    edge ∈ graph other := by
  by_cases same : other = own
  · subst same
    rw [update_self] at mem
    exact mem_of_mem_filter mem
  · rwa [update_of_ne same] at mem

theorem purgeBinaryEdges_spec (id : Nat) : (s.purgeBinaryEdges id).clauses = s.clauses ∧
    (s.purgeBinaryEdges id).trail = s.trail ∧
    ∀ lit, ∀ edge ∈ (s.purgeBinaryEdges id).binaryGraph lit, edge ∈ s.binaryGraph lit := by
  unfold purgeBinaryEdges
  split
  · exact ⟨rfl, rfl, fun lit edge mem => mem_purge (mem_purge mem)⟩
  · exact ⟨rfl, rfl, fun _ _ mem => mem⟩

theorem retireClause_edits (id : Nat) :
    Edits s (s.retireClause id) id (fun clause => { clause with deleted := true }) ∧
      ∀ lit, ∀ edge ∈ (s.retireClause id).binaryGraph lit, edge ∈ s.binaryGraph lit := by
  obtain ⟨clauses, trail, edges⟩ := @purgeBinaryEdges_spec s id
  obtain ⟨facts, levels⟩ := @releaseReasons_trail (s.purgeBinaryEdges id) id
  refine ⟨⟨?_, facts.trans (by rw [trail]), levels.trans (by rw [trail])⟩, edges⟩
  exact congrArg (modify · id fun clause => { clause with deleted := true }) clauses

theorem attachWatchers_fields (id : Nat) (l0 l1 : Lit) :
    (s.attachWatchers id l0 l1).clauses = s.clauses ∧
      (s.attachWatchers id l0 l1).trail = s.trail := by
  unfold attachWatchers
  split <;> exact ⟨rfl, rfl⟩

theorem detach_fields (id : Nat) : (s.detach id).clauses = s.clauses ∧
    (s.detach id).trail = s.trail ∧ (s.detach id).binaryGraph = s.binaryGraph := by
  unfold detach
  split <;> exact ⟨rfl, rfl, rfl⟩

theorem rewatch_edits {id : Nat} {lits : Clause} (long : 2 ≤ lits.length)
    (stored : id < s.clauses.length) :
    ∃ kept, kept.Perm lits ∧
      Edits s (s.rewatch id lits) id (fun clause => { clause with lits := kept }) ∧
      ∀ lit, ∀ edge ∈ (s.rewatch id lits).binaryGraph lit, edge ∈ s.binaryGraph lit ∨
        (edge.2 = id ∧ kept.Perm [lit.negate, edge.1]) := by
  have perm := watchOrder_perm s.trail lits
  unfold rewatch
  match order : watchOrder s.trail lits with
  | [] | [_] =>
    -- No literal is lost in the reordering.
    have same := perm.length_eq
    simp only [order, length_nil, length_cons] at same
    omega
  | l0 :: l1 :: rest =>
    rw [order] at perm
    obtain ⟨clauses, trail, graph⟩ := @detach_fields s id
    obtain ⟨clauses', trail'⟩ :=
      @attachWatchers_fields ((s.detach id).setLits id (l0 :: l1 :: rest)) id l0 l1
    refine ⟨l0 :: l1 :: rest, perm, ⟨?_, ?_, ?_⟩, fun lit edge mem => ?_⟩
    · dsimp only
      rw [clauses', setLits, clauses]
    · dsimp only
      rw [Trail.resetPropagationHead, trail', setLits_trail, trail]
    · dsimp only
      rw [trail', setLits_trail, trail]
      rfl
    · dsimp only at mem
      unfold attachWatchers at mem
      split at mem
      · rename_i binary
        -- The clause has two literals, and each implies the other one.
        have short : (l0 :: l1 :: rest).length = 2 := by
          simpa [setLits, clauses, getElem?_modify, stored] using binary
        obtain rfl : rest = [] := by simpa using short
        rcases mem_addEdge.mp mem with before | ⟨rfl, rfl⟩
        · rcases mem_addEdge.mp before with old | ⟨rfl, rfl⟩
          · exact .inl (by rwa [setLits_binaryGraph, graph] at old)
          · exact .inr ⟨rfl, by simp⟩
        · exact .inr ⟨rfl, by simpa using List.Perm.swap l1 l0 []⟩
      · exact .inl (by rw [← graph]; exact mem)

end Solver

section

variable {s : Solver} {lits : Clause} {lit : Lit}

theorem mark_spec (lits : Clause) (lit : Lit) :
    (0 < mark lits lit → lit ∈ lits) ∧ (mark lits lit < 0 → lit.negate ∈ lits) := by
  have all : ∀ (rest : Clause) (old : Lit → Int),
      ((0 < old lit → lit ∈ lits) ∧ (old lit < 0 → lit.negate ∈ lits)) → (∀ own ∈ rest, own ∈ lits) →
      (0 < rest.foldl (fun mark own => update (update mark own 1) own.negate (-1)) old lit →
        lit ∈ lits) ∧
      (rest.foldl (fun mark own => update (update mark own 1) own.negate (-1)) old lit < 0 →
        lit.negate ∈ lits) := by
    intro rest
    induction rest with
    | nil => exact fun old known _ => known
    | cons own rest ih =>
      intro old known lies
      have here := lies own (.head _)
      refine ih _ ?_ fun other mem => lies other (.tail _ mem)
      -- Marking a literal is right for the literal and for its complement.
      by_cases flipped : lit = own.negate
      · subst flipped
        simp [here]
      · by_cases same : lit = own
        · subst same
          simp [here, flipped]
        · simpa [flipped, same] using known
  exact all lits _ (by simp) fun _ => id

theorem matchMarks_spec {mark : Lit → Int} {other : Clause} :
    ∀ {flipped found : Option Lit}, matchMarks mark flipped other = some found →
      (∀ lit ∈ other, 0 < mark lit ∨ found = some lit) ∧
      (∀ lit, found = some lit → flipped = some lit ∨ (lit ∈ other ∧ mark lit < 0)) ∧
      (∀ lit, flipped = some lit → found = some lit) := by
  induction other with
  | nil =>
    intro flipped found same
    obtain rfl := some.inj same
    exact ⟨fun _ none => (nomatch none), fun _ => .inl, fun _ => id⟩
  | cons head rest ih =>
    intro flipped found same
    unfold matchMarks at same
    split at same
    · cases same
    · split at same
      · next pos =>
        obtain ⟨all, source, kept⟩ := ih same
        refine ⟨forall_mem_cons.mpr ⟨.inl pos, all⟩, fun lit here => ?_, kept⟩
        exact (source lit here).imp_right fun ⟨mem, off⟩ => ⟨.tail _ mem, off⟩
      · split at same
        · cases same
        · next nonzero notPositive first =>
          -- The head is the one literal whose complement occurs.
          obtain ⟨all, source, kept⟩ := ih same
          have here := kept head rfl
          have nothing : flipped = none := by simpa using first
          refine ⟨forall_mem_cons.mpr ⟨.inr here, all⟩, fun lit found_ => .inr ?_, ?_⟩
          · obtain rfl : head = lit := some.inj (here.symm.trans found_)
            exact ⟨.head _, by omega⟩
          · rw [nothing]
            exact fun _ none => nomatch none

/-- What the comparison with another clause says of the literals of a clause. -/
def Finds (s : Solver) (lits : Clause) : SubCheck → Prop
  | .subsumed id => ∃ other, s.liveLits id = some other ∧ ∀ lit ∈ other, lit ∈ lits
  | .strengthen remove id => ∃ other lit, s.liveLits id = some other ∧ lit ∈ other ∧
      remove = lit.negate ∧ lit.negate ∈ lits ∧ ∀ own ∈ other, own = lit ∨ own ∈ lits

def SubCheck.other : SubCheck → Nat
  | .subsumed id => id
  | .strengthen _ id => id

theorem checkEdges_spec (edges : s.Edges) (mem : lit ∈ lits) {found : SubCheck} :
    ∀ {list : List (Lit × Nat)}, (∀ edge ∈ list, edge ∈ s.binaryGraph lit.negate) →
      s.checkEdges (mark lits) list = some found →
      Finds s lits found ∧ ∃ other, s.liveLits found.other = some other ∧ other.length = 2 := by
  intro list
  induction list with
  | nil => exact fun _ none => nomatch none
  | cons edge rest ih =>
    obtain ⟨implied, id⟩ := edge
    intro lies same
    have later := @ih fun edge mem => lies edge (.tail _ mem)
    unfold Solver.checkEdges at same
    split at same
    · exact later same
    · next live =>
      obtain ⟨other, found_⟩ := ne_none_iff_exists'.mp (by simpa using live)
      -- The clause of the edge has the literal and the implied one.
      have pair := edges (lies _ (.head _)) found_
      rw [Lit.negate_negate] at pair
      have literals : ∀ own ∈ other, own = lit ∨ own = implied := fun own lies => by
        simpa using pair.mem_iff.mp lies
      obtain ⟨pos, negative⟩ := mark_spec lits implied
      split at same
      · next marked =>
        obtain rfl := some.inj same
        refine ⟨⟨other, found_, fun own lies => ?_⟩, other, found_, pair.length_eq⟩
        rcases literals own lies with rfl | rfl
        · exact mem
        · exact pos marked
      · split at same
        · next marked =>
          obtain rfl := some.inj same
          refine ⟨⟨other, implied, found_, pair.mem_iff.mpr (by simp), rfl, negative marked,
            fun own lies => ?_⟩, other, found_, pair.length_eq⟩
          rcases literals own lies with rfl | rfl
          · exact .inr mem
          · exact .inl rfl
        · exact later same

theorem checkOccs_spec {found : SubCheck} {checks' : Nat} :
    ∀ {list : List Nat} {checks : Nat}, s.checkOccs (mark lits) list checks = (some found, checks') →
      Finds s lits found ∧ found.other ∈ list := by
  intro list
  induction list with
  | nil => exact fun none => nomatch none
  | cons id rest ih =>
    intro checks same
    unfold Solver.checkOccs at same
    split at same
    · exact (ih same).imp_right (.tail _)
    · next other live =>
      split at same
      · exact (ih same).imp_right (.tail _)
      · next whole =>
        cases same
        obtain ⟨all, -⟩ := matchMarks_spec whole
        exact ⟨⟨other, live, fun own lies => (mark_spec lits own).1 (by simpa using all own lies)⟩,
          .head _⟩
      · next flipped whole =>
        cases same
        obtain ⟨all, source, -⟩ := matchMarks_spec whole
        obtain ⟨lies, off⟩ := (source flipped rfl).resolve_left (fun none => nomatch none)
        refine ⟨⟨other, flipped, live, lies, rfl, (mark_spec lits flipped).2 off,
          fun own mem => ?_⟩, .head _⟩
        rcases all own mem with marked | same
        · exact .inr ((mark_spec lits own).1 marked)
        · exact .inl (some.inj same).symm

theorem checkLits_spec (edges : s.Edges) {occs : Lit → List Nat} {budget checks' : Nat}
    {found : SubCheck} : ∀ {list : List Lit} {checks : Nat}, (∀ lit ∈ list, lit ∈ lits) →
      s.checkLits (mark lits) occs budget list checks = (some found, checks') →
      Finds s lits found ∧ ((∃ other, s.liveLits found.other = some other ∧ other.length = 2) ∨
        ∃ lit, found.other ∈ occs lit) := by
  intro list
  induction list with
  | nil => exact fun _ none => nomatch none
  | cons lit rest ih =>
    intro checks lies same
    unfold Solver.checkLits at same
    split at same
    · next found_ hit =>
      cases same
      exact (checkEdges_spec edges (lies lit (.head _)) (fun _ => id) hit).imp_right .inl
    · split at same
      · next hit =>
        cases same
        exact (checkOccs_spec hit).imp_right fun mem => .inr ⟨lit, mem⟩
      · split at same
        · cases same
        · exact ih (fun own mem => lies own (.tail _ mem)) same

end

section

variable {config : SubsumeConfig} {s₀ s t : Solver} {state : SubsumeState} {rest : List Nat}
  {id : Nat} {lits : Clause}

/-- The clause is live, not subject to reduction, and contained in the literals. -/
def Solver.Subsumes (s : Solver) (id : Nat) (lits : Clause) : Prop :=
  ∃ clause, s.clauses[id]? = some clause ∧ clause.deleted = false ∧ clause.learned = false ∧
    ∀ lit ∈ clause.lits, lit ∈ lits

/-- The clause is live, and with it the first literals entail the others. -/
def Solver.Resolves (s : Solver) (id : Nat) (lits kept : Clause) : Prop :=
  ∃ clause, s.clauses[id]? = some clause ∧ clause.deleted = false ∧
    ∀ m, Satisfies m lits → Satisfies m clause.lits → Satisfies m kept

/-- What became of a clause: it stayed, lost a literal to another one, or went because of one. -/
structure Fate (s : Solver) (rest : List Nat) (old new : StoredClause) : Prop where
  learned : new.learned = true → old.learned = true
  gone : old.deleted = true → new.deleted = true ∧ new.lits = old.lits
  subsumed : old.deleted = false → new.deleted = true → old.learned = false →
    ∃ other, other ∉ rest ∧ s.Subsumes other old.lits
  kept : new.deleted = false → new.lits = old.lits ∨
    ∃ other, other ∉ rest ∧ s.Resolves other old.lits new.lits

/-- What holds while the clauses of the list are still to be checked. -/
structure Rounded (s₀ s : Solver) (occs : Lit → List Nat) (rest : List Nat) : Prop where
  same : ∀ m, s.Means m ↔ s₀.Means m
  derived : s.Derived
  plain : s.Plain
  edges : s.Edges
  connected : ∀ lit, ∀ id ∈ occs lit, id ∉ rest
  waiting : ∀ id ∈ rest, s.clauses[id]? = s₀.clauses[id]? ∧
    ∀ lits, s.liveLits id = some lits → 3 ≤ lits.length
  fate : ∀ (id : Nat) (old : StoredClause), s₀.clauses[id]? = some old →
    ∃ new, s.clauses[id]? = some new ∧ Fate s rest old new

/-- Checked clauses keep their literals, and none becomes subject to reduction. -/
def Stays (s t : Solver) (rest rest' : List Nat) : Prop :=
  ∀ (other : Nat) (clause : StoredClause), other ∉ rest → s.clauses[other]? = some clause →
    other ∉ rest' ∧ ∃ clause', t.clauses[other]? = some clause' ∧ clause'.lits = clause.lits ∧
      clause'.deleted = clause.deleted ∧ (clause'.learned = true → clause.learned = true)

theorem Fate.stay {rest' : List Nat} {old new new' : StoredClause} (fate : Fate s rest old new)
    (stays : Stays s t rest rest') (lits : new'.lits = new.lits)
    (deleted : new'.deleted = new.deleted) (learned : new'.learned = true → new.learned = true) :
    Fate t rest' old new' where
  learned := fun now => fate.learned (learned now)
  gone := by
    rw [lits, deleted]
    exact fate.gone
  subsumed := by
    -- The subsuming clause was checked, so it stays.
    intro live gone irredundant
    obtain ⟨other, apart, clause, found, alive, own, lies⟩ :=
      fate.subsumed live (deleted ▸ gone) irredundant
    obtain ⟨apart', clause', found', lits', deleted', learned'⟩ := stays other clause apart found
    refine ⟨other, apart', clause', found', deleted'.trans alive, ?_, by rwa [lits']⟩
    exact Bool.eq_false_iff.mpr fun now => by simp [learned' now] at own
  kept := by
    intro live
    rw [lits]
    refine (fate.kept (deleted ▸ live)).imp_right ?_
    rintro ⟨other, apart, clause, found, alive, resolves⟩
    obtain ⟨apart', clause', found', lits', deleted', -⟩ := stays other clause apart found
    exact ⟨other, apart', clause', found', deleted'.trans alive, by rwa [lits']⟩

theorem Edits.lookup {edit : StoredClause → StoredClause} (edits : Solver.Edits s t id edit)
    (other : Nat) : t.clauses[other]? =
      if other = id then (s.clauses[other]?).map edit else s.clauses[other]? := by
  rw [edits.clauses, getElem?_modify]
  by_cases same : other = id
  · simp [same]
  · simp [same, Ne.symm same]

theorem Rounded.edit {occs : Lit → List Nat} {edit : StoredClause → StoredClause}
    {clause : StoredClause} (rounded : Rounded s₀ s occs (id :: rest)) (fresh : id ∉ rest)
    (edits : Solver.Edits s t id edit) (found : s.clauses[id]? = some clause)
    (live : clause.deleted = false) (learned : (edit clause).learned = clause.learned)
    (lies : ∀ lit ∈ (edit clause).lits, lit ∈ clause.lits) (edges : t.Edges)
    (weaker : ∀ m, s.Means m → (edit clause).deleted = false → Satisfies m (edit clause).lits)
    (kept : (edit clause).deleted = false → (edit clause).lits = clause.lits ∨
      ∃ other, other ∉ id :: rest ∧ s.Resolves other clause.lits (edit clause).lits)
    (gone : (edit clause).deleted = true → clause.learned = false →
      ∃ other, other ∉ id :: rest ∧ s.Subsumes other clause.lits) : Rounded s₀ t occs rest := by
  have lookup := Edits.lookup edits
  have here : t.clauses[id]? = some (edit clause) := by simp [lookup, found]
  have stays : Stays s t (id :: rest) rest := fun other own apart known => by
    rw [mem_cons, not_or] at apart
    exact ⟨apart.2, own, by simp [lookup, apart.1, known], rfl, rfl, fun now => now⟩
  have satisfied : ∀ {m : Assignment} {small large : Clause}, (∀ lit ∈ small, lit ∈ large) →
      Satisfies m small → Satisfies m large :=
    fun sub ⟨lit, mem, holds⟩ => ⟨lit, sub lit mem, holds⟩
  obtain ⟨same, derived⟩ := Solver.means_iff edits.facts edits.levels
    (fun m means other own known alive => by
      by_cases own_ : other = id
      · subst own_
        obtain rfl := some.inj (here.symm.trans known)
        exact weaker m means alive
      · exact rounded.derived m means other own (by simpa [lookup, own_] using known) alive)
    (fun m means other own known alive irredundant => by
      by_cases own_ : other = id
      · -- The changed clause says what it said, or another one says it.
        subst own_
        obtain rfl := some.inj (found.symm.trans known)
        cases dead : (edit clause).deleted with
        | false =>
          exact satisfied lies (means.1 other _ here dead (learned.trans irredundant))
        | true =>
          obtain ⟨third, apart, clause', known', alive', irredundant', sub⟩ := gone dead irredundant
          have apart' : third ≠ other := fun same => apart (same ▸ .head _)
          exact satisfied sub (means.1 third clause' (by simp [lookup, apart', known']) alive'
            irredundant')
      · exact means.1 other own (by simp [lookup, own_, known]) alive irredundant)
  refine ⟨fun m => (same m).trans (rounded.same m), derived, ?_, edges,
    fun lit other mem later => rounded.connected lit other mem (.tail _ later),
    fun other later => ?_, fun other old known => ?_⟩
  · intro own mem alive lit literal
    obtain ⟨other, known⟩ := mem_iff_getElem?.mp mem
    by_cases own_ : other = id
    · subst own_
      obtain rfl := some.inj (here.symm.trans known)
      exact fun complement => rounded.plain clause (mem_of_getElem? found) live lit
        (lies lit literal) (lies _ complement)
    · exact rounded.plain own (mem_of_getElem? (by simpa [lookup, own_] using known)) alive lit literal
  · have apart : other ≠ id := fun same => fresh (same ▸ later)
    have unchanged : t.clauses[other]? = s.clauses[other]? := by simp [lookup, apart]
    obtain ⟨start, long⟩ := rounded.waiting other (.tail _ later)
    refine ⟨unchanged.trans start, fun lits alive => long lits ?_⟩
    rwa [Solver.liveLits, ← unchanged]
  · obtain ⟨new, known', fate⟩ := rounded.fate other old known
    by_cases own_ : other = id
    · -- The clause was still as it was at the start.
      subst own_
      obtain rfl := some.inj (known.symm.trans ((rounded.waiting other (.head _)).1 ▸ found))
      refine ⟨_, here, ⟨fun now => learned ▸ now, fun dead => ?_, fun _ dead irredundant => ?_,
        fun alive => ?_⟩⟩
      · rw [live] at dead
        cases dead
      · obtain ⟨third, apart, clause', found', alive', irredundant', sub⟩ := gone dead irredundant
        rw [mem_cons, not_or] at apart
        exact ⟨third, apart.2, clause', by simp [lookup, apart.1, found'], alive', irredundant', sub⟩
      · refine (kept alive).imp_right fun ⟨third, apart, clause', found', alive', resolves⟩ => ?_
        rw [mem_cons, not_or] at apart
        exact ⟨third, apart.2, clause', by simp [lookup, apart.1, found'], alive', resolves⟩
    · exact ⟨new, by simp [lookup, own_, known'], fate.stay stays rfl rfl fun now => now⟩

theorem Rounded.promote {occs : Lit → List Nat} (rounded : Rounded s₀ s occs rest) {other : Nat}
    (checked : other ∉ rest) (live : ∃ lits, s.liveLits other = some lits) :
    Rounded s₀ (s.clearLearned other) occs rest := by
  obtain ⟨lits, live⟩ := live
  obtain ⟨clause, found, alive, -⟩ := Solver.liveLits_eq_some.mp live
  have lookup : ∀ j, (s.clearLearned other).clauses[j]? = if j = other then
      some { clause with learned := false } else s.clauses[j]? := by
    intro j
    rw [Solver.clearLearned, List.getElem?_modify]
    by_cases same : j = other
    · simp [same, found]
    · simp [same, Ne.symm same]
  have lives : ∀ j, (s.clearLearned other).liveLits j = s.liveLits j := by
    intro j
    rw [Solver.liveLits, Solver.liveLits, lookup]
    by_cases same : j = other
    · simp [same, found]
    · simp [same]
  have back : ∀ (j : Nat) (new : StoredClause), (s.clearLearned other).clauses[j]? = some new →
      ∃ old : StoredClause, s.clauses[j]? = some old ∧ new.lits = old.lits ∧ new.deleted = old.deleted := by
    intro j new known
    rw [lookup] at known
    split at known
    · next same =>
      subst same
      obtain rfl := some.inj known
      exact ⟨clause, found, rfl, rfl⟩
    · exact ⟨new, known, rfl, rfl⟩
  have forth : ∀ (j : Nat) (old : StoredClause), s.clauses[j]? = some old → ∃ new : StoredClause,
      (s.clearLearned other).clauses[j]? = some new ∧ new.lits = old.lits ∧
        new.deleted = old.deleted ∧ (new.learned = true → old.learned = true) := by
    intro j old known
    rw [lookup]
    split
    · next same =>
      subst same
      obtain rfl := some.inj (known.symm.trans found)
      exact ⟨_, rfl, rfl, rfl, fun now => nomatch now⟩
    · exact ⟨old, known, rfl, rfl, fun now => now⟩
  obtain ⟨same, derived⟩ := @Solver.means_iff s (s.clearLearned other) rfl rfl
    (fun m means j new known alive => by
      obtain ⟨old, known', lits, deleted⟩ := back j new known
      rw [lits]
      exact rounded.derived m means j old known' (deleted ▸ alive))
    (fun m means j old known alive irredundant => by
      obtain ⟨new, known', lits, deleted, learned⟩ := forth j old known
      rw [← lits]
      exact means.1 j new known' (deleted.trans alive)
        (Bool.eq_false_iff.mpr fun now => by simp [learned now] at irredundant))
  refine ⟨fun m => (same m).trans (rounded.same m), derived, fun new mem => ?_,
    fun {lit implied j lits} mem => ?_, rounded.connected, fun j later => ?_, fun j old known => ?_⟩
  · obtain ⟨j, known⟩ := mem_iff_getElem?.mp mem
    obtain ⟨old, known', lits, deleted⟩ := back j new known
    rw [lits, deleted]
    exact rounded.plain old (mem_of_getElem? known')
  · rw [lives]
    exact rounded.edges mem
  · obtain ⟨start, long⟩ := rounded.waiting j later
    have apart : j ≠ other := fun same => checked (same ▸ later)
    rw [lookup, if_neg apart, lives]
    exact ⟨start, long⟩
  · obtain ⟨new, known', fate⟩ := rounded.fate j old known
    obtain ⟨new', found', lits, deleted, learned⟩ := forth j new known'
    exact ⟨new', found', fate.stay (fun k own apart known => ⟨apart, forth k own known⟩)
      lits deleted learned⟩

theorem Rounded.connect {occs : Lit → List Nat} (rounded : Rounded s₀ s occs rest)
    (fresh : id ∉ rest) : Rounded s₀ s (s.connect occs id) rest := by
  refine { rounded with connected := fun lit other mem => ?_ }
  have add : ∀ own, other ∈ update occs own (occs own ++ [id]) lit → other ∉ rest := by
    intro own lies
    by_cases same : lit = own
    · subst same
      rw [update_self] at lies
      rcases mem_append.mp lies with old | new
      · exact rounded.connected _ other old
      · rwa [mem_singleton.mp new]
    · rw [update_of_ne same] at lies
      exact rounded.connected lit other lies
  have either : s.connect occs id = occs ∨
      ∃ own, s.connect occs id = update occs own (occs own ++ [id]) := by
    unfold Solver.connect
    split
    · dsimp only
      split
      · exact .inr ⟨_, rfl⟩
      · exact .inl rfl
    · exact .inl rfl
  rcases either with same | ⟨own, same⟩
  · rw [same] at mem
    exact rounded.connected lit other mem
  · rw [same] at mem
    exact add own mem

theorem satisfies_resolvent {m : Assignment} {lit : Lit} {other : Clause} (mem : lit ∈ other)
    (plain : lit.negate ∉ other) (lies : ∀ own ∈ other, own = lit ∨ own ∈ lits)
    (whole : Satisfies m lits) (resolving : Satisfies m other) :
    Satisfies m (lits.eraseIdx (lits.idxOf lit.negate)) := by
  have kept : ∀ own ∈ lits, own ≠ lit.negate → own ∈ lits.eraseIdx (lits.idxOf lit.negate) := by
    intro own there apart
    rw [← erase_eq_eraseIdx_of_idxOf rfl]
    exact (mem_erase_of_ne apart).mpr there
  obtain ⟨own, there, holds⟩ := whole
  by_cases flipped : own = lit.negate
  · -- The complement holds, so another literal of the resolving clause does.
    subst flipped
    obtain ⟨third, there', holds'⟩ := resolving
    rcases lies third there' with rfl | within
    · exact absurd holds' (Lit.holds_negate.mp holds)
    · exact ⟨third, kept third within fun same => plain (same ▸ there'), holds'⟩
  · exact ⟨own, kept own there flipped, holds⟩

theorem Rounded.skip {occs : Lit → List Nat} (rounded : Rounded s₀ s occs (id :: rest)) :
    Rounded s₀ s occs rest where
  same := rounded.same
  derived := rounded.derived
  plain := rounded.plain
  edges := rounded.edges
  connected := fun lit other mem later => rounded.connected lit other mem (.tail _ later)
  waiting := fun other later => rounded.waiting other (.tail _ later)
  fate := by
    intro other old known
    obtain ⟨new, known', fate⟩ := rounded.fate other old known
    refine ⟨new, known', fate.stay (fun k own apart found => ?_) rfl rfl fun now => now⟩
    exact ⟨fun later => apart (.tail _ later), own, found, rfl, rfl, fun now => now⟩

theorem Rounded.retire {occs : Lit → List Nat} (rounded : Rounded s₀ s occs (id :: rest))
    (fresh : id ∉ rest) {clause : StoredClause} (found : s.clauses[id]? = some clause)
    (live : clause.deleted = false) (subsumed : clause.learned = false →
      ∃ other, other ∉ id :: rest ∧ s.Subsumes other clause.lits) :
    Rounded s₀ (s.retireClause id) occs rest := by
  obtain ⟨edits, edges⟩ := @Solver.retireClause_edits s id
  refine rounded.edit fresh edits found live rfl (fun _ mem => mem)
    (fun {lit implied other lits} mem known => ?_) (fun _ _ now => nomatch now)
    (fun now => nomatch now) fun _ => subsumed
  -- A clause that is live afterwards was live before.
  have known' : s.liveLits other = some lits := by
    obtain ⟨own, found', alive, rfl⟩ := Solver.liveLits_eq_some.mp known
    rw [Edits.lookup edits] at found'
    split at found'
    · obtain ⟨_, _, rfl⟩ := map_eq_some_iff.mp found'
      cases alive
    · exact Solver.liveLits_eq_some.mpr ⟨own, found', alive, rfl⟩
  exact rounded.edges (edges lit _ mem) known'

theorem Rounded.strengthen {occs : Lit → List Nat} (rounded : Rounded s₀ s occs (id :: rest))
    (fresh : id ∉ rest) {clause other : StoredClause} {subsumer : Nat} {lit : Lit}
    (found : s.clauses[id]? = some clause) (live : clause.deleted = false)
    (long : 3 ≤ clause.lits.length) (apart : subsumer ∉ id :: rest)
    (found' : s.clauses[subsumer]? = some other) (live' : other.deleted = false)
    (mem : lit ∈ other.lits) (flipped : lit.negate ∈ clause.lits)
    (lies : ∀ own ∈ other.lits, own = lit ∨ own ∈ clause.lits) :
    Rounded s₀ (s.removeLiteral id (clause.lits.idxOf lit.negate)) occs rest := by
  have position := idxOf_lt_length_of_mem flipped
  have known : s.liveLits id = some clause.lits := Solver.liveLits_eq_some.mpr ⟨_, found, live, rfl⟩
  have shorter : 2 ≤ (clause.lits.eraseIdx (clause.lits.idxOf lit.negate)).length := by
    rw [length_eraseIdx_of_lt position]
    omega
  obtain ⟨kept, perm, edits, edges⟩ := Solver.rewatch_edits shorter (liveLits_lt known)
  have removed : s.removeLiteral id (clause.lits.idxOf lit.negate) =
      s.rewatch id (clause.lits.eraseIdx (clause.lits.idxOf lit.negate)) := by
    rw [Solver.removeLiteral, known]
    exact if_pos ⟨by omega, position⟩
  have resolves : ∀ m, Satisfies m clause.lits → Satisfies m other.lits → Satisfies m kept := by
    intro m whole resolving
    obtain ⟨own, there, holds⟩ := satisfies_resolvent mem
      (rounded.plain other (mem_of_getElem? found') live' lit mem) lies whole resolving
    exact ⟨own, perm.mem_iff.mpr there, holds⟩
  rw [removed]
  refine rounded.edit fresh edits found live rfl
    (fun own there => mem_of_mem_eraseIdx (perm.mem_iff.mp there))
    (fun {lit implied j lits} mem known' => ?_)
    (fun m means _ => resolves m (rounded.derived m means id clause found live)
      (rounded.derived m means subsumer other found' live'))
    (fun _ => .inr ⟨subsumer, apart, other, found', live', resolves⟩)
    (fun dead => by rw [live] at dead; cases dead)
  -- The edges of the shortened clause are its own, and those of the others were there.
  by_cases own : j = id
  · subst own
    have now : lits = kept := by
      obtain ⟨own, found_, -, rfl⟩ := Solver.liveLits_eq_some.mp known'
      rw [Edits.lookup edits, if_pos rfl, found] at found_
      rw [← some.inj found_]
    rcases edges lit _ mem with old | ⟨-, pair⟩
    · -- The clause was long, so it had no edges.
      have pair := (rounded.edges old known).length_eq
      simp only [length_cons, length_nil] at pair
      omega
    · rwa [now]
  · have before : s.liveLits j = some lits := by
      rw [← known', Solver.liveLits, Solver.liveLits, Edits.lookup edits, if_neg own]
    rcases edges lit _ mem with old | ⟨same, -⟩
    · exact rounded.edges old before
    · exact absurd same own

theorem Rounded.subsumeOne (rounded : Rounded s₀ state.solver state.occs (id :: rest))
    (fresh : id ∉ rest) (budget : Nat) :
    Rounded s₀ (config.subsumeOne budget state id).solver
      (config.subsumeOne budget state id).occs rest := by
  have connected : ∀ lit, ∀ other ∈ state.occs lit, other ∉ id :: rest := rounded.connected
  unfold SubsumeConfig.subsumeOne
  dsimp only
  split
  · exact rounded.skip
  · next lits known =>
    obtain ⟨clause, found, live, rfl⟩ := Solver.liveLits_eq_some.mp known
    have long := (rounded.waiting id (.head _)).2 _ known
    split
    · exact rounded.skip
    · -- The other clause is binary or connected, so it is not checked any more.
      have checked : ∀ {check : SubCheck} {checks : Nat}, state.solver.checkLits (mark clause.lits)
          state.occs budget clause.lits state.checks = (some check, checks) →
          Finds state.solver clause.lits check ∧ check.other ∉ id :: rest := by
        intro check checks hit
        obtain ⟨finds, binary | ⟨lit, mem⟩⟩ :=
          checkLits_spec rounded.edges (fun _ there => there) hit
        · obtain ⟨other, known', two⟩ := binary
          refine ⟨finds, fun later => ?_⟩
          have := (rounded.waiting _ later).2 other known'
          omega
        · exact ⟨finds, connected lit _ mem⟩
      split
      · next subsumer checks hit =>
        obtain ⟨⟨other, known', lies⟩, apart⟩ := checked hit
        obtain ⟨clause', found', live', rfl⟩ := Solver.liveLits_eq_some.mp known'
        have other : id ≠ subsumer := fun same => apart (same ▸ .head _)
        split
        · -- The subsuming clause is promoted, so it is not subject to reduction.
          refine Rounded.retire (rounded.promote apart ⟨_, known'⟩) fresh
            (by simp [Solver.clearLearned, other.symm, found]) live
            fun _ => ⟨subsumer, apart, { clause' with learned := false }, ?_, live', rfl, lies⟩
          simp [Solver.clearLearned, found']
        · next kept =>
          refine rounded.retire fresh found live fun irredundant =>
            ⟨subsumer, apart, clause', found', live', ?_, lies⟩
          simpa [Solver.isLearned, found, found', irredundant] using kept
      · next remove subsumer checks hit =>
        obtain ⟨⟨other, lit, known', mem, rfl, flipped, lies⟩, apart⟩ := checked hit
        obtain ⟨clause', found', live', rfl⟩ := Solver.liveLits_eq_some.mp known'
        split
        · exact (rounded.strengthen fresh found live long apart found' live' mem flipped
            lies).connect fresh
        · exact rounded.skip.connect fresh
      · exact rounded.skip.connect fresh

theorem Rounded.run {budget : Nat} : ∀ {schedule : List Nat} {state : SubsumeState},
    schedule.Nodup → Rounded s₀ state.solver state.occs schedule →
    ∃ occs, Rounded s₀ (schedule.foldl (fun state id => if state.checks ≥ budget then state
      else config.subsumeOne budget state id) state).solver occs [] := by
  intro schedule
  induction schedule with
  | nil => exact fun _ rounded => ⟨_, rounded⟩
  | cons id rest ih =>
    intro state distinct rounded
    obtain ⟨fresh, distinct⟩ := nodup_cons.mp distinct
    rw [foldl_cons]
    split
    · exact ih distinct rounded.skip
    · exact ih distinct (rounded.subsumeOne fresh budget)

theorem Rounded.start (plain : s.Plain) (edges : s.Edges) (derived : s.Derived)
    {schedule : List Nat} (scheduled : config.Schedules s schedule) :
    schedule.Nodup ∧ Rounded s s (fun _ => []) schedule := by
  obtain ⟨perm, -⟩ := scheduled
  refine ⟨perm.nodup_iff.mpr (nodup_range.filter _), fun _ => Iff.rfl, derived, plain, edges,
    fun _ _ none => (nomatch none), fun id waits => ⟨rfl, fun lits known => ?_⟩,
    fun id old known => ⟨old, known, fun now => now, fun gone => ⟨gone, rfl⟩, fun live gone => ?_,
      fun _ => .inl rfl⟩⟩
  · obtain ⟨clause, found, live, rfl⟩ := Solver.liveLits_eq_some.mp known
    have eligible := (mem_filter.mp (perm.mem_iff.mp waits)).2
    simp only [SubsumeConfig.eligible, found, any_some, live] at eligible
    by_contra short
    simp [show clause.lits.length < 3 by omega] at eligible
  · rw [live] at gone
    cases gone

theorem Attached.edges (attached : Attached s) : s.Edges := by
  intro lit implied id lits mem known
  obtain ⟨lits', known', perm⟩ := attached.edge mem
  obtain rfl := some.inj (known.symm.trans known')
  exact perm

theorem Sound.derived {formula : Cnf} (sound : Sound formula formula s) : s.Derived := by
  intro m means id clause known live
  refine sound.entailed (Solver.liveLits_eq_some.mpr ⟨clause, known, live, rfl⟩) m ?_
  intro own mem
  rcases sound.covered own mem with ⟨lit, lies, true_, level⟩ | taut |
    ⟨id, lits, ⟨stored, found, irredundant⟩, alive, -, sub⟩
  · exact ⟨lit, lies, means.2 lit (sound.ready.trail.mem_iff.mpr true_) level⟩
  · exact taut m
  · obtain ⟨clause, found', live, rfl⟩ := Solver.liveLits_eq_some.mp alive
    obtain rfl := some.inj (found.symm.trans found')
    obtain ⟨lit, lies, holds⟩ := means.1 id stored found live irredundant
    exact ⟨lit, sub lies, holds⟩

end

end Search

end Nixie.Sat
