import Nixie.Euf.Explain
import Nixie.Euf.Scopes

/-! Histories of calls, and what holds after each of them. -/

namespace Nixie.Euf

open UndoTrail EufSolver

/-- A call of the equality solver that changes its state. -/
inductive Op where
  | intern (term : Nat)
  | internApp (term func : Nat) (args : List Nat)
  | merge (a b reason : Nat)
  | assertDiseq (a b reason : Nat)
  | push
  | pop
  | find (a : Nat)
  | explainEquality (a b : Nat)
  | explainDiseq (a b : Nat)
  | checkConflicts
  deriving DecidableEq, Repr

namespace Op

def run : Op → EufSolver → EufSolver
  | .intern term, s => (s.intern term).2
  | .internApp term func args, s => (s.internApp term func args).2
  | .merge a b reason, s => s.merge a b reason
  | .assertDiseq a b reason, s => s.assertDiseq a b reason
  | .push, s => s.push
  | .pop, s => s.pop
  | .find a, s => { s with uf := (s.uf.find a).2 }
  | .explainEquality a b, s => (s.tryExplainEquality a b).2
  | .explainDiseq a b, s => (s.tryExplainDiseq a b).2
  | .checkConflicts, s => s.checkConflicts.2

/-- Calls are about existing nodes, and no application has the symbol of a leaf. -/
def Legal (s : EufSolver) : Op → Prop
  | .intern _ => True
  | .internApp _ func args => func < noFunc ∧ ∀ arg ∈ args, arg < s.nodes.length
  | .merge a b _ => a < s.nodes.length ∧ b < s.nodes.length
  | .assertDiseq a b _ => a < s.nodes.length ∧ b < s.nodes.length
  | .push => True
  | .pop => True
  | .find a => a < s.nodes.length
  | .explainEquality _ _ => True
  | .explainDiseq a b => a < s.nodes.length ∧ b < s.nodes.length
  | .checkConflicts => True

instance (s : EufSolver) (op : Op) : Decidable (op.Legal s) := by
  cases op <;> unfold Legal <;> infer_instance

def isScope : Op → Bool
  | .push => true
  | .pop => true
  | _ => false

/-- Calls of the innermost scope and of the outer ones, each newest first. -/
def track : Op → List Op × List (List Op) → List Op × List (List Op)
  | .push, (current, outer) => ([], current :: outer)
  | .pop, (_, scope :: outer) => (scope, outer)
  -- Without an open scope nothing is closed.
  | .pop, (current, []) => (current, [])
  | op, (current, outer) => (op :: current, outer)

end Op

def replay (properties : Nat → FunctionProperties) (history : List Op) : EufSolver :=
  history.foldr Op.run (.new properties)

/-- A history of legal calls that satisfy a condition in the state before them. -/
def Allowed (condition : EufSolver → Op → Prop) (properties : Nat → FunctionProperties) :
    List Op → Prop
  | [] => True
  | op :: earlier => Allowed condition properties earlier ∧
      op.Legal (replay properties earlier) ∧ condition (replay properties earlier) op

def Allowed.decide {condition : EufSolver → Op → Prop}
    [each : ∀ s op, Decidable (condition s op)] (properties : Nat → FunctionProperties) :
    ∀ history, Decidable (Allowed condition properties history)
  | [] => .isTrue trivial
  | op :: earlier =>
    have : Decidable (Allowed condition properties earlier) := Allowed.decide properties earlier
    have : Decidable (condition (replay properties earlier) op) := each _ op
    inferInstanceAs (Decidable (_ ∧ _ ∧ _))

instance {condition : EufSolver → Op → Prop} [∀ s op, Decidable (condition s op)]
    (properties : Nat → FunctionProperties) (history : List Op) :
    Decidable (Allowed condition properties history) := Allowed.decide properties history

abbrev LegalHistory (properties : Nat → FunctionProperties) (history : List Op) : Prop :=
  Allowed (fun _ _ => True) properties history

def openScopes (history : List Op) : List Op × List (List Op) := history.foldr Op.track ([], [])

def callsOf (scopes : List Op × List (List Op)) : List Op := scopes.1 ++ scopes.2.flatten

def liveCalls (history : List Op) : List Op := callsOf (openScopes history)

def mergesOf (calls : List Op) : List (Nat × Nat × Nat) :=
  calls.filterMap fun op =>
    match op with
    | .merge a b reason => some (a, b, reason)
    | _ => none

def diseqsOf (calls : List Op) : List (Nat × Nat × Nat) :=
  calls.filterMap fun op =>
    match op with
    | .assertDiseq a b reason => some (a, b, reason)
    | _ => none

/-- A property of the state between two calls, given the calls that are still live. -/
structure Holds (property : List Op → EufSolver → Prop) (live : List Op) (s : EufSolver)
    (saved : List EufSolver) : Prop where
  settled : s.pending = []
  sound : Sound s (mergesOf live) saved
  property : property live s

/-- The property holds now and held when each open scope was entered. -/
def Tracks (property : List Op → EufSolver → Prop) :
    List Op × List (List Op) → EufSolver → List EufSolver → Prop
  | (current, []), s, [] => Holds property current s []
  | (current, scope :: outer), s, before :: older =>
    Holds property (callsOf (current, scope :: outer)) s (before :: older) ∧
      Tracks property (scope, outer) before older
  | _, _, _ => False

variable {property : List Op → EufSolver → Prop} {condition : EufSolver → Op → Prop}
  {properties : Nat → FunctionProperties} {s : EufSolver} {saved : List EufSolver}
  {scopes : List Op × List (List Op)} {merges : List (Nat × Nat × Nat)}

theorem Tracks.holds (tracks : Tracks property scopes s saved) :
    Holds property (callsOf scopes) s saved := by
  obtain ⟨current, outer⟩ := scopes
  cases outer with
  | nil =>
    cases saved with
    | nil =>
      have whole : callsOf (current, []) = current := by simp [callsOf]
      rw [whole]
      exact tracks
    | cons before older => exact tracks.elim
  | cons scope outer =>
    cases saved with
    | nil => exact tracks.elim
    | cons before older => exact tracks.1

theorem Tracks.replace {op : Op} {after : EufSolver} (tracks : Tracks property scopes s saved)
    (holds : Holds property (op :: callsOf scopes) after saved) :
    Tracks property (op :: scopes.1, scopes.2) after saved := by
  obtain ⟨current, outer⟩ := scopes
  cases outer with
  | nil =>
    cases saved with
    | nil =>
      have whole : callsOf (current, []) = current := by simp [callsOf]
      rw [whole] at holds
      exact holds
    | cons before older => exact tracks.elim
  | cons scope outer =>
    cases saved with
    | nil => exact tracks.elim
    | cons before older => exact ⟨holds, tracks.2⟩

theorem tryExplainEquality_state (s : EufSolver) (a b : Nat) :
    ∃ cache, (s.tryExplainEquality a b).2 = { s with explCache := cache } := by
  unfold tryExplainEquality
  dsimp only
  split
  · exact ⟨_, rfl⟩
  · split
    · exact ⟨_, rfl⟩
    · split
      · exact ⟨_, rfl⟩
      · split
        · exact ⟨_, rfl⟩
        · split
          · exact ⟨_, rfl⟩
          · exact ⟨_, rfl⟩

theorem checkConflicts_state (s : EufSolver) :
    ∃ cache, s.checkConflicts.2 = { s with explCache := cache } := by
  unfold checkConflicts
  split
  · exact ⟨_, rfl⟩
  · exact tryExplainEquality_state s _ _

theorem findDiseq_state {count ra rb : Nat} :
    ∀ (watched : List Nat) {s : EufSolver}, s.uf.WellFormed count →
      ∃ uf, s.uf.SameClasses uf ∧ (findDiseq ra rb watched s).2 = { s with uf := uf } := by
  intro watched
  induction watched with
  | nil => exact fun _ => ⟨_, .refl _, rfl⟩
  | cons idx rest ih =>
    intro s wf
    unfold findDiseq
    split
    · exact ⟨_, .refl _, rfl⟩
    · rename_i diseq _
      have left := UnionFind.find_sameClasses wf diseq.lhs
      have both := left.trans (UnionFind.find_sameClasses (left.wellFormed _ wf) diseq.rhs)
      dsimp only
      split
      · exact ⟨_, both, rfl⟩
      · split
        · exact ⟨_, both, rfl⟩
        · obtain ⟨uf, same, state⟩ :=
            @ih { s with uf := ((s.uf.find diseq.lhs).2.find diseq.rhs).2 }
              (both.wellFormed _ wf)
          exact ⟨uf, both.trans same, state⟩

theorem tryExplainDiseq_state {count : Nat} {s : EufSolver} (wf : s.uf.WellFormed count)
    (a b : Nat) : ∃ uf cache, s.uf.SameClasses uf ∧
      (s.tryExplainDiseq a b).2 = { s with uf := uf, explCache := cache } := by
  have left := UnionFind.find_sameClasses wf a
  have both := left.trans (UnionFind.find_sameClasses (left.wellFormed _ wf) b)
  unfold tryExplainDiseq
  dsimp only
  split
  · exact ⟨_, _, both, rfl⟩
  · obtain ⟨uf, same, state⟩ := @findDiseq_state count (s.uf.find a).1 ((s.uf.find a).2.find b).1
      (s.diseq.diseqWatch.lists (s.uf.find a).1) { s with uf := ((s.uf.find a).2.find b).2 }
      (both.wellFormed _ wf)
    split
    · rename_i s' found
      rw [found] at state
      have state : s' = _ := state
      exact ⟨uf, _, both.trans same, state⟩
    · rename_i sideA sideB reason s' found
      rw [found] at state
      have state : s' = _ := state
      obtain ⟨cacheA, stateA⟩ := tryExplainEquality_state s' a sideA
      split
      · rename_i s'' explained
        rw [explained] at stateA
        have stateA : s'' = _ := stateA
        exact ⟨uf, cacheA, both.trans same, by rw [stateA, state]⟩
      · rename_i reasonsA s'' explained
        rw [explained] at stateA
        have stateA : s'' = _ := stateA
        obtain ⟨cacheB, stateB⟩ := tryExplainEquality_state s'' b sideB
        exact ⟨uf, cacheB, both.trans same, by dsimp only; rw [stateB, stateA, state]⟩

/-- The state in which a call starts to propagate, if it does. -/
def Op.scheduled (s : EufSolver) : Op → Option EufSolver
  | .merge a b reason =>
    some { s with explCache := [], pending := (a, b, .assertion reason) :: s.pending }
  | .internApp term func args =>
    let flattened := s.flattenArgs func args
    -- Only a new application with a taken signature is merged.
    if s.termToNode term = none then
      (s.sig.sigTable (signature s.functionProperties s.root (.app func flattened term))).map
        fun existing => withCongruence s term func flattened existing
    else none
  | _ => none

/-- What a call within a scope does to the merges and the disequalities. -/
inductive Effect (op : Op) (s : EufSolver) (live : List Op) (saved : List EufSolver) : Prop where
  | propagates (scheduled : EufSolver) (starts : op.scheduled s = some scheduled)
      (state : op.run s = scheduled.propagate)
      (sound : Sound scheduled (mergesOf (op :: live)) saved) (diseq : scheduled.diseq = s.diseq)
      (same : diseqsOf (op :: live) = diseqsOf live) : Effect op s live saved
  | separates (a b reason : Nat) (call : op = .assertDiseq a b reason) : Effect op s live saved
  | keeps (pending : (op.run s).pending = []) (sound : Sound (op.run s) (mergesOf live) saved)
      (diseq : (op.run s).diseq = s.diseq) (merges : mergesOf (op :: live) = mergesOf live)
      (same : diseqsOf (op :: live) = diseqsOf live) : Effect op s live saved

theorem Sound.effect {op : Op} {live : List Op} (sound : Sound s (mergesOf live) saved)
    (settled : s.pending = []) (legal : op.Legal s) (inner : op.isScope = false) :
    Effect op s live saved := by
  obtain ⟨log, inv⟩ := sound.inv
  cases op with
  | intern term =>
    refine .keeps ?_ (sound.intern settled term) ?_ rfl rfl
    · show (s.intern term).2.pending = []
      unfold EufSolver.intern
      split <;> exact settled
    · show (s.intern term).2.diseq = s.diseq
      unfold EufSolver.intern
      split <;> rfl
  | internApp term func args =>
    cases known : s.termToNode term with
    | some idx =>
      have state : Op.run (.internApp term func args) s = s := by
        rw [Op.run, EufSolver.internApp, known]
      exact .keeps (state.symm ▸ settled) (state.symm ▸ sound) (by rw [state]) rfl rfl
    | none =>
      have flat := @Invariant.flattenArgs_lt s (mergesOf live) log inv func args legal.2
      rcases inv.internApp_cases func args known with ⟨existing, taken, state⟩ | ⟨free, state⟩
      · refine .propagates (withCongruence s term func (s.flattenArgs func args) existing) ?_ state
          (sound.congruentApp settled legal.1 flat known taken)
          (inv.withApp_diseq term func _) rfl
        simp only [Op.scheduled, known, taken, if_true, Option.map_some]
      · obtain ⟨pending, sound'⟩ := sound.publishedApp settled legal.1 flat known free
        have state : Op.run (.internApp term func args) s =
          withSignature s term func (s.flattenArgs func args) := state
        refine .keeps (state.symm ▸ pending) (state.symm ▸ sound') ?_ rfl rfl
        rw [state]
        exact inv.withApp_diseq term func _
  | merge a b reason =>
    exact .propagates _ rfl rfl (sound.scheduledMerge settled reason legal.1 legal.2) rfl rfl
  | assertDiseq a b reason => exact .separates a b reason rfl
  | push => cases inner
  | pop => cases inner
  | find a =>
    exact .keeps settled (sound.sameClasses (UnionFind.find_sameClasses inv.uf a) s.explCache)
      rfl rfl rfl
  | explainEquality a b =>
    obtain ⟨cache, state⟩ := tryExplainEquality_state s a b
    have state : Op.run (.explainEquality a b) s = _ := state
    refine .keeps ?_ ?_ ?_ rfl rfl <;> rw [state]
    · exact settled
    · exact sound.sameClasses (.refl s.uf) cache
  | explainDiseq a b =>
    obtain ⟨uf, cache, same, state⟩ := tryExplainDiseq_state inv.uf a b
    have state : Op.run (.explainDiseq a b) s = _ := state
    refine .keeps ?_ ?_ ?_ rfl rfl <;> rw [state]
    · exact settled
    · exact sound.sameClasses same cache
  | checkConflicts =>
    obtain ⟨cache, state⟩ := checkConflicts_state s
    have state : Op.run .checkConflicts s = _ := state
    refine .keeps ?_ ?_ ?_ rfl rfl <;> rw [state]
    · exact settled
    · exact sound.sameClasses (.refl s.uf) cache

theorem Sound.run {op : Op} {live : List Op} (sound : Sound s (mergesOf live) saved)
    (settled : s.pending = []) (legal : op.Legal s) (inner : op.isScope = false) :
    (op.run s).pending = [] ∧ Sound (op.run s) (mergesOf (op :: live)) saved := by
  cases sound.effect settled legal inner with
  | propagates scheduled _ state sound' _ _ =>
    rw [state]
    exact sound'.propagate
  | separates a b reason call =>
    subst call
    exact ⟨settled, sound.assertDiseq reason legal.1 legal.2⟩
  | keeps pending sound' _ merges _ => exact ⟨pending, merges.symm ▸ sound'⟩

theorem Op.track_inner {op : Op} (inner : op.isScope = false)
    (scopes : List Op × List (List Op)) : op.track scopes = (op :: scopes.1, scopes.2) := by
  cases op <;> first | rfl | cases inner

theorem Sound.new (properties : Nat → FunctionProperties) : Sound (.new properties) [] [] where
  inv := by
    have wf : UnionFind.new.WellFormed 0 := ⟨Nat.le_refl _, by simp, fun _ _ => rfl,
      fun _ _ => rfl, fun _ moves => absurd rfl moves⟩
    have root : ∀ x, UnionFind.new.findNoCompress x = x :=
      fun x => wf.find_outside (Nat.zero_le x)
    refine ⟨[], {
      uf := wf
      terms := by simp [EufSolver.new]
      args := by simp [EufSolver.new]
      uses := by simp [EufSolver.new]
      useRange := fun _ _ => rfl
      sig := ⟨by simp [EufSolver.new, SigTables.empty], by simp [EufSolver.new, SigTables.empty],
        by simp [EufSolver.new, SigTables.empty]⟩
      represented := by
        intro user node here
        simp [EufSolver.new] at here
      merged := by simp
      scheduled := by simp [EufSolver.new]
      classes := by
        intro x y
        show UnionFind.new.findNoCompress x = UnionFind.new.findNoCompress y ↔ _
        rw [root, root]
        constructor
        · rintro rfl
          exact .refl _
        · intro joined
          exact joined.least ⟨fun _ => rfl, Eq.symm, Eq.trans⟩ (by simp)
      forest := trivial
      supported := trivial
      edges := by simp [EufSolver.new, AppendTable.empty]
      edgeRange := fun _ _ => rfl }⟩
  diseq := by
    refine ⟨?_, ?_, ?_, fun _ _ => rfl, fun _ => rfl, fun _ => Nat.le_refl _, ?_⟩ <;>
      simp [EufSolver.new, DiseqIndex.empty]
  restores := {
    context := rfl
    uf := ⟨rfl, trivial⟩
    sig := ⟨rfl, trivial⟩
    uses := ⟨rfl, trivial⟩
    edges := ⟨rfl, trivial⟩
    diseq := ⟨rfl, trivial, by simp [EufSolver.new, DiseqIndex.empty, DiseqIndex.InRange],
      ⟨rfl, trivial⟩, trivial⟩
    grows := List.pairwise_singleton _ _ }

section

variable (start : property [] (.new properties))
  (inner : ∀ {op : Op} {live : List Op} {s : EufSolver} {saved : List EufSolver},
    op.isScope = false → op.Legal s → condition s op → Holds property live s saved →
      property (op :: live) (op.run s))
  (opened : ∀ {live : List Op} {s : EufSolver} {saved : List EufSolver},
    Holds property live s saved → property live s.push)
  (closed : ∀ {live : List Op} {after before : EufSolver}, SameCore after before →
    after.explCache = [] → property live before → property live after)

include start inner opened closed

/-- A property that every call keeps, and that closing a scope gives back with the state, holds
after every history. -/
theorem Allowed.tracks : ∀ {history : List Op}, Allowed condition properties history →
      ∃ saved, Tracks property (openScopes history) (replay properties history) saved := by
  intro history
  induction history with
  | nil => exact fun _ => ⟨[], rfl, Sound.new properties, start⟩
  | cons op earlier ih =>
    rintro ⟨allowed, legal, meets⟩
    obtain ⟨saved, tracks⟩ := ih allowed
    have holds := tracks.holds
    cases kind : op.isScope with
    | false =>
      refine ⟨saved, ?_⟩
      obtain ⟨settled, sound⟩ := holds.sound.run holds.settled legal kind
      show Tracks property (op.track (openScopes earlier)) _ saved
      rw [Op.track_inner kind]
      exact tracks.replace ⟨settled, sound, inner kind legal meets holds⟩
    | true =>
      cases op with
      | push =>
        refine ⟨replay properties earlier :: saved, ?_⟩
        have entered : Holds property (callsOf (openScopes earlier))
            (replay properties earlier).push (replay properties earlier :: saved) :=
          ⟨holds.settled, holds.sound.push, opened holds⟩
        exact ⟨entered, tracks⟩
      | pop =>
        show ∃ saved, Tracks property (Op.track .pop (openScopes earlier))
          (replay properties earlier).pop saved
        cases scopes : openScopes earlier with
        | mk current outer =>
          rw [scopes] at tracks
          cases outer with
          | nil =>
            cases saved with
            | cons before older => exact tracks.elim
            | nil =>
              -- Without an open scope nothing is closed.
              have none_ := holds.sound.restores.context
              refine ⟨[], ?_⟩
              have same : (replay properties earlier).pop = replay properties earlier := by
                rw [pop, none_]
                rfl
              rw [same]
              exact tracks
          | cons scope outer =>
            cases saved with
            | nil => exact tracks.elim
            | cons before older =>
              obtain ⟨current_, entered⟩ := tracks
              have old := entered.holds
              obtain ⟨settled, sound⟩ := current_.sound.popped old.sound old.settled
              obtain ⟨core, cache, _⟩ := current_.sound.pop old.sound old.settled
              have whole : Holds property (callsOf (scope, outer))
                  (replay properties earlier).pop older :=
                ⟨settled, sound, closed core cache old.property⟩
              refine ⟨older, ?_⟩
              cases outer with
              | nil =>
                cases older with
                | nil =>
                  have calls : callsOf (scope, []) = scope := by simp [callsOf]
                  rw [calls] at whole
                  exact whole
                | cons before' older => exact entered.elim
              | cons scope' outer =>
                cases older with
                | nil => exact entered.elim
                | cons before' older => exact ⟨whole, entered.2⟩
      | _ => cases kind

theorem Allowed.holds {history : List Op} (allowed : Allowed condition properties history) :
    ∃ saved, Holds property (liveCalls history) (replay properties history) saved := by
  obtain ⟨saved, tracks⟩ := Allowed.tracks start inner opened closed allowed
  exact ⟨saved, tracks.holds⟩

end

end Nixie.Euf
