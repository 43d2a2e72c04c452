import Nixie.Sat.Search.Propagate

/-! Propagation to the end of the queue, and the runs between two calls. -/

namespace Nixie.Sat.Search

open List

/-- A whole call of propagation, as far as clauses and trail are concerned. -/
structure Progress (s t : Solver) : Prop where
  rearranged : Rearranged s t
  flags : t.clauses.map (fun clause => (clause.learned, clause.deleted)) =
    s.clauses.map fun clause => (clause.learned, clause.deleted)
  steps : UnitSteps s.liveLits s.trail t.trail
  numVars : t.numVars = s.numVars

/-- What holds between two calls, with the examined part of the trail. -/
structure Ready (tracked : Nat → Prop) (done : Nat) (s : Solver) : Prop where
  trail : s.trail.Inv
  attached : Attached s
  vars : ∀ lit ∈ s.trail.assignments, lit.var < s.numVars
  head : s.trail.propHead ≤ s.trail.assignments.length
  dequeued : done ≤ s.trail.propHead
  opened : ∀ start ∈ s.trail.levelStarts, start ≤ done
  guarded : Guarded tracked done s

section

variable {s t u : Solver} {tracked : Nat → Prop} {done : Nat}

theorem Progress.refl (s : Solver) : Progress s s := ⟨.refl s, rfl, .refl, rfl⟩

theorem Progress.trans (first : Progress s t) (second : Progress t u) : Progress s u :=
  ⟨first.rearranged.trans second.rearranged, second.flags.trans first.flags,
    first.steps.trans (second.steps.rearrange first.rearranged), second.numVars.trans first.numVars⟩

theorem Advance.progress (advance : Advance s t) : Progress s t :=
  { advance with }

theorem progress_head (s : Solver) (head : Nat) :
    Progress s { s with trail := { s.trail with propHead := head } } :=
  ⟨.refl s, rfl, UnitSteps.refl.head head, rfl⟩

theorem UnitSteps.vars {live : Nat → Option Clause} {first second : Trail} {number : Nat}
    (steps : UnitSteps live first second)
    (below : ∀ {id lits}, live id = some lits → ∀ lit ∈ lits, lit.var < number)
    (old : ∀ lit ∈ first.assignments, lit.var < number) :
    ∀ lit ∈ second.assignments, lit.var < number := by
  induction steps with
  | refl => exact old
  | unit _ found mem _ _ ih =>
    intro other lies
    rcases mem_append.mp lies with before | last
    · exact ih other before
    · rw [mem_singleton.mp last]
      exact below found _ mem
  | head _ _ ih => exact ih

theorem Ready.length_le (ready : Ready tracked done s) : s.trail.assignments.length ≤ s.numVars := by
  have distinct := ready.trail.fits.distinct
  rw [append_nil] at distinct
  have sub : s.trail.assignments.map Lit.var ⊆ range s.numVars := by
    intro var mem
    obtain ⟨lit, lies, rfl⟩ := mem_map.mp mem
    exact mem_range.mpr (ready.vars lit lies)
  have bound := (subperm_of_subset distinct sub).length_le
  rwa [length_map, length_range] at bound

theorem Guarded.withHead (guarded : Guarded tracked done s) (head : Nat) :
    Guarded tracked done { s with trail := { s.trail with propHead := head } } := guarded

theorem propagateLit_ready {lit : Lit} {conflict : Option Nat}
    (ready : Ready tracked s.trail.propHead s)
    (next : s.trail.assignments[s.trail.propHead]? = some lit)
    (result : Solver.propagateLit
      { s with trail := { s.trail with propHead := s.trail.propHead + 1 } } lit = (t, conflict)) :
    Progress s t ∧ Ready tracked t.trail.propHead t ∧
      (conflict = none → t.trail.propHead = s.trail.propHead + 1) ∧
      ∀ id, conflict = some id → Falsified t id := by
  have lies := (List.getElem?_eq_some_iff.mp next).1
  have true_ : s.trail.litVal lit = 1 := ready.trail.mem_iff.mp (mem_of_getElem? next)
  have inv := ready.trail.propHead (s.trail.propHead + 1)
  have attached := ready.attached.withTrail { s.trail with propHead := s.trail.propHead + 1 }
  have start := progress_head s (s.trail.propHead + 1)
  -- What every part of the call keeps, whatever the queue is afterwards.
  have kept : ∀ {u : Solver}, Advance { s with trail :=
      { s.trail with propHead := s.trail.propHead + 1 } } u → Attached u →
      Progress s u ∧ u.trail.Inv ∧ u.trail.propHead = s.trail.propHead + 1 ∧
        s.trail.assignments.length ≤ u.trail.assignments.length ∧
        (∀ lit ∈ u.trail.assignments, lit.var < u.numVars) ∧
        u.trail.levelStarts = s.trail.levelStarts ∧ Guarded tracked s.trail.propHead u := by
    intro u advance _
    obtain ⟨-, starts, ⟨later, longer⟩, -⟩ := advance.steps.keeps inv
    refine ⟨start.trans advance.progress, advance.steps.inv inv, advance.head, ?_, ?_, starts,
      advance.guarded ready.head (ready.guarded.withHead _)⟩
    · rw [longer, length_append]
      exact Nat.le_add_right _ _
    · rw [advance.numVars]
      exact advance.steps.vars attached.below ready.vars
  rcases propagateLit_spec attached inv true_ result with
    ⟨rfl, advance, attached', settled⟩ | ⟨id, u, rfl, rfl, advance, attached', falsified⟩
  · obtain ⟨progress, inv', head, longer, vars, starts, guarded⟩ := kept advance attached'
    refine ⟨progress, ⟨inv', attached', vars, by omega, le_rfl, fun start mem => ?_, ?_⟩,
      fun _ => head, fun _ found => nomatch found⟩
    · rw [starts] at mem
      have old := ready.opened start mem
      omega
    · -- The dequeued literal is now examined too.
      intro number tracks lits live long watch mem false_ early
      rw [head] at early
      rcases Nat.lt_succ_iff_lt_or_eq.mp early with before | here
      · exact guarded number tracks lits live long watch mem false_ before
      · have flipped := inv'.position (inv'.false_iff.mp false_)
        rw [Lit.negate_var, here] at flipped
        obtain ⟨-, -, ⟨later, more⟩, -⟩ := advance.steps.keeps inv
        rw [more, getElem?_append_left lies, next] at flipped
        have same : watch = lit.negate := by rw [Option.some.inj flipped, Lit.negate_negate]
        obtain ⟨guard, inside_, satisfied⟩ := settled number lits live long (same ▸ mem)
        refine ⟨guard, inside_, satisfied, ?_⟩
        -- Every level had started before the literal was dequeued.
        have began := inv'.levelStart (@Trail.Inv.level_le _ inv' guard (by rw [satisfied]; decide))
        have opened := ready.opened _ (starts ▸ mem_of_getElem? began)
        omega
  · obtain ⟨progress, inv', head, longer, vars, starts, guarded⟩ := kept advance attached'
    have back : u.requeue.trail.propHead = s.trail.propHead := by
      unfold Solver.requeue Trail.requeueLastPropagated
      dsimp only
      omega
    refine ⟨progress.trans (progress_head u _), ⟨inv'.propHead _, attached'.withTrail _, vars, ?_,
      le_rfl, fun start mem => ?_, ?_⟩, fun absent => (nomatch absent), fun other found => ?_⟩
    · rw [back]
      exact ready.head.trans longer
    · rw [back]
      exact ready.opened start (starts ▸ mem)
    · rw [back]
      exact guarded.withHead _
    · cases found
      exact falsified

def Ends (tracked : Nat → Prop) (limit : Option Nat) (t : Solver) : Solver.Outcome → Prop
  | .fixpoint => Ready tracked t.trail.propHead t ∧ t.trail.propHead = t.trail.assignments.length
  | .aborted => limit ≠ none ∧ Ready tracked (t.trail.propHead - 1) t
  | .conflict id => Ready tracked t.trail.propHead t ∧ Falsified t id

theorem propagateLoop_ends : ∀ {fuel : Nat} {limit : Option Nat} {s : Solver},
    Ready tracked s.trail.propHead s → s.numVars < fuel + s.trail.propHead →
      ∃ t outcome, Solver.propagateLoop fuel limit s = some (t, outcome) ∧ Progress s t ∧
        Ends tracked limit t outcome := by
  intro fuel
  induction fuel with
  | zero =>
    intro limit s ready fuel
    have bound := ready.length_le
    have head := ready.head
    omega
  | succ fuel ih =>
    intro limit s ready enough
    unfold Solver.propagateLoop Trail.nextToPropagate
    by_cases pending : s.trail.propHead < s.trail.assignments.length
    · rw [if_pos pending, getElem?_eq_getElem pending]
      dsimp only
      have next := getElem?_eq_getElem pending
      split
      · -- The literal was dequeued and not examined.
        rename_i stop
        refine ⟨_, .aborted, rfl, progress_head s _, by rw [stop]; simp, ready.trail.propHead _,
          ready.attached.withTrail _, ready.vars, pending, Nat.sub_le _ _, ready.opened,
          ready.guarded.withHead _⟩
      · cases result : Solver.propagateLit
            { s with trail := { s.trail with propHead := s.trail.propHead + 1 } }
              s.trail.assignments[s.trail.propHead] with
        | mk t conflict =>
          obtain ⟨progress, ready', head, falsified⟩ := propagateLit_ready ready next result
          cases conflict with
          | some id => exact ⟨t, .conflict id, rfl, progress, ready', falsified id rfl⟩
          | none =>
            have enough' : t.numVars < fuel + t.trail.propHead := by
              rw [progress.numVars, head rfl]
              omega
            obtain ⟨u, outcome, done, later, ends⟩ := @ih (limit.map (· - 1)) t ready' enough'
            refine ⟨u, outcome, done, progress.trans later, ?_⟩
            cases outcome with
            | fixpoint => exact ends
            | aborted => exact ⟨by simpa using ends.1, ends.2⟩
            | conflict id => exact ends
    · rw [if_neg pending]
      exact ⟨s, .fixpoint, rfl, .refl s, ready, Nat.le_antisymm ready.head (Nat.le_of_not_lt pending)⟩

theorem propagate_ends (limit : Option Nat) (ready : Ready tracked s.trail.propHead s) :
    ∃ t outcome, s.propagate limit = some (t, outcome) ∧ Progress s t ∧
      Ends tracked limit t outcome :=
  propagateLoop_ends ready (by omega)

theorem Ready.complete (ready : Ready tracked done s) (all : done = s.trail.assignments.length)
    {id : Nat} (tracks : tracked id) {lits : Clause} (live : s.liveLits id = some lits)
    (long : 2 ≤ lits.length) :
    (∃ lit ∈ lits, s.trail.litVal lit = 1) ∨
      ∃ first ∈ lits, ∃ second ∈ lits, first ≠ second ∧ s.trail.litVal first = 0 ∧
        s.trail.litVal second = 0 := by
  have nodup := ready.attached.distinct live
  match lits, long with
  | l0 :: l1 :: rest, _ =>
    -- A falsified watch is guarded, and a true one satisfies the clause.
    have either : ∀ watch ∈ (l0 :: l1 :: rest).take 2,
        (∃ lit ∈ l0 :: l1 :: rest, s.trail.litVal lit = 1) ∨ s.trail.litVal watch = 0 := by
      intro watch mem
      rcases ready.trail.value_cases watch with true_ | false_ | open_
      · exact .inl ⟨watch, mem_of_mem_take mem, true_⟩
      · have early := @Trail.Inv.defined_lt _ ready.trail watch (by rw [false_]; decide)
        obtain ⟨guard, lies, satisfied, -⟩ :=
          ready.guarded id tracks _ live (by simp) watch mem false_ (all ▸ early)
        exact .inl ⟨guard, lies, satisfied⟩
      · exact .inr open_
    rcases either l0 (.head _) with satisfied | first
    · exact .inl satisfied
    · rcases either l1 (.tail _ (.head _)) with satisfied | second
      · exact .inl satisfied
      · refine .inr ⟨l0, .head _, l1, .tail _ (.head _), fun same => ?_, first, second⟩
        rw [same] at nodup
        simp at nodup

end

end Nixie.Sat.Search
