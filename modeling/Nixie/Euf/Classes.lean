import Nixie.Euf.Runs

/-! After every history the classes are the congruence closure of the live equalities. -/

namespace Nixie.Euf

open Forest EufSolver

/-- Function symbol and arguments of a node that is an application. -/
def appOf (nodes : List ENode) (x : Nat) : Option (Nat × List Nat) :=
  (nodes[x]?).bind fun node => if node.isApp then some (node.func, node.args) else none

/-- Equality of nodes that follows from some equations by congruence closure. -/
abbrev Follows (s : EufSolver) (equations : Nat → Nat → Prop) : Nat → Nat → Prop :=
  Closure (appOf s.nodes) (fun func => (s.functionProperties func).commutative) equations

/-- Two nodes whose equality was asserted. -/
def Asserted (merges : List (Nat × Nat × Nat)) (x y : Nat) : Prop :=
  ∃ reason, (x, y, reason) ∈ merges

theorem appOf_eq_some {nodes : List ENode} {x func : Nat} {args : List Nat} :
    appOf nodes x = some (func, args) ↔
      ∃ node, nodes[x]? = some node ∧ node.isApp = true ∧ node.func = func ∧ node.args = args := by
  unfold appOf
  cases nodes[x]? with
  | none => simp
  | some node => by_cases app : node.isApp = true <;> simp [app]

variable {s : EufSolver} {merges : List (Nat × Nat × Nat)}
  {log : List (Nat × Nat × MergeReason)}

theorem Applied.follows {related : Nat → Nat → Prop} {equations : Nat → Nat → Prop} {x y : Nat}
    (applied : Applied s.functionProperties s.nodes related x y)
    (follows : ∀ x y, related x y → Follows s equations x y) : Follows s equations x y := by
  obtain ⟨left, right, arranged, hereX, hereY, appX, appY, funcs, order, length, pairs⟩ := applied
  refine .congr (appOf_eq_some.mpr ⟨left, hereX, appX, rfl, rfl⟩)
    (appOf_eq_some.mpr ⟨right, hereY, appY, funcs.symm, rfl⟩) order length ?_
  exact fun pair mem => follows _ _ (pairs pair mem)

theorem Supported.follows (supported : Supported s.functionProperties s.nodes merges log)
    {x y : Nat} (joined : Joins ends (· ∈ log) x y) : Follows s (Asserted merges) x y := by
  -- Every merge follows from older ones, which follow from the live equalities.
  induction log generalizing x y with
  | nil => exact joined.least Closure.equivalence (by simp)
  | cons entry older ih =>
    obtain ⟨a, b, reason⟩ := entry
    obtain ⟨first, rest⟩ := supported
    refine joined.least Closure.equivalence fun edge mem => ?_
    rcases List.mem_cons.mp mem with rfl | old
    · cases reason with
      | assertion term => exact .base ⟨term, first⟩
      | congruence x y =>
        obtain ⟨rfl, rfl, applied⟩ := first
        exact applied.follows fun x y joined => ih rest joined
    · exact ih rest (.edge old)

theorem Invariant.congruent (inv : Invariant s merges log) (settled : s.pending = []) {x y : Nat}
    {func : Nat} {args others arranged : List Nat}
    (left : appOf s.nodes x = some (func, args)) (right : appOf s.nodes y = some (func, others))
    (order : Arranged (s.functionProperties func).commutative arranged others)
    (length : args.length = arranged.length)
    (equal : ∀ pair ∈ args.zip arranged, s.root pair.1 = s.root pair.2) :
    s.root x = s.root y := by
  obtain ⟨nodeX, hereX, appX, funcX, argsX⟩ := appOf_eq_some.mp left
  obtain ⟨nodeY, hereY, appY, funcY, argsY⟩ := appOf_eq_some.mp right
  -- Equal arguments give the same signature, which is registered for one node only.
  have same : signature s.functionProperties s.root nodeX =
      signature s.functionProperties s.root nodeY := by
    simp only [signature, funcX, funcY, argsX, argsY]
    congr 1
    exact canonicalOrder_eq_iff.mpr ⟨arranged, order, map_eq_map_iff_zip.mpr ⟨length, equal⟩⟩
  obtain ⟨holderX, entryX, linkX⟩ := inv.represented x nodeX hereX appX
  obtain ⟨holderY, entryY, linkY⟩ := inv.represented y nodeY hereY appY
  rw [same, entryY] at entryX
  cases entryX
  rw [settled] at linkX linkY
  exact linkX.settled.symm.trans linkY.settled

theorem Invariant.root_eq_iff (inv : Invariant s merges log) (settled : s.pending = [])
    (x y : Nat) : s.root x = s.root y ↔ Follows s (Asserted merges) x y := by
  constructor
  · intro equal
    exact inv.supported.follows ((inv.classes x y).mp equal)
  · intro follows
    have related : Equivalence fun x y => s.root x = s.root y := ⟨fun _ => rfl, Eq.symm, Eq.trans⟩
    refine @Closure.least _ _ _ _ _ (fun x y => s.root x = s.root y) related ?_
      (fun left right order length equal =>
        inv.congruent settled left right order length equal) _ _ follows
    rintro x y ⟨reason, mem⟩
    have linked := inv.merged (x, y, reason) mem
    rw [settled] at linked
    exact linked.settled

/-- States with the same terms. -/
structure SameTerms (s other : EufSolver) : Prop where
  nodes : s.nodes = other.nodes
  terms : s.termToNode = other.termToNode
  properties : s.functionProperties = other.functionProperties

namespace EufSolver

def created (s : EufSolver) : Op → Option ENode
  | .intern term => if s.termToNode term = none then some (.leaf term) else none
  | .internApp term func args =>
    if s.termToNode term = none then some (.app func (s.flattenArgs func args) term) else none
  | _ => none

/-- The state has gained a node, if there is a new one. -/
def Gained (s after : EufSolver) : Option ENode → Prop
  | none => SameTerms after s
  | some node => after.nodes = s.nodes ++ [node] ∧
      after.termToNode = Function.update s.termToNode node.term (some s.nodes.length) ∧
      after.functionProperties = s.functionProperties

theorem Gained.properties {after : EufSolver} {node : Option ENode}
    (gained : s.Gained after node) : after.functionProperties = s.functionProperties := by
  cases node with
  | none => exact SameTerms.properties gained
  | some node => exact gained.2.2

theorem created_congr {other : EufSolver} (same : SameTerms s other) (op : Op) :
    s.created op = other.created op := by
  cases op <;> simp only [created, flattenArgs, same.nodes, same.terms, same.properties]

theorem applyMerge_terms (s : EufSolver) (a b : Nat) (reason : MergeReason) :
    SameTerms (s.applyMerge a b reason) s := by
  unfold applyMerge
  dsimp only
  split <;> exact ⟨rfl, rfl, rfl⟩

theorem propagate_terms (s : EufSolver) : SameTerms s.propagate s := by
  refine @propagateLoop_run (SameTerms · s) (fun s' a b reason rest same _ => ?_)
    s.propagateFuel s ⟨rfl, rfl, rfl⟩
  have step := applyMerge_terms { s' with pending := rest } a b reason
  exact ⟨step.nodes.trans same.nodes, step.terms.trans same.terms,
    step.properties.trans same.properties⟩

end EufSolver

theorem Sound.gained {op : Op} {live : List Op} {saved : List EufSolver}
    (sound : Sound s (mergesOf live) saved) (legal : op.Legal s) (inner : op.isScope = false) :
    s.Gained (op.run s) (s.created op) := by
  obtain ⟨log, inv⟩ := sound.inv
  cases op with
  | intern term =>
    cases known : s.termToNode term with
    | some idx =>
      have old : s.created (.intern term) = none := by simp [created, known]
      rw [old, Op.run, EufSolver.intern, known]
      exact ⟨rfl, rfl, rfl⟩
    | none =>
      have new : s.created (.intern term) = some (.leaf term) := by simp [created, known]
      rw [new, Op.run, EufSolver.intern, known]
      exact ⟨rfl, rfl, rfl⟩
  | internApp term func args =>
    cases known : s.termToNode term with
    | some idx =>
      have old : s.created (.internApp term func args) = none := by simp [created, known]
      rw [old, Op.run, internApp, known]
      exact ⟨rfl, rfl, rfl⟩
    | none =>
      have new : s.created (.internApp term func args) =
          some (.app func (s.flattenArgs func args) term) := by simp [created, known]
      rw [new]
      have flat := @Invariant.flattenArgs_lt s (mergesOf live) log inv func args legal.2
      obtain ⟨extended, _⟩ := inv.withApp_extended term func flat
      rcases inv.internApp_cases func args known with ⟨existing, _, state⟩ | ⟨_, state⟩
      · rw [Op.run, state]
        have kept := propagate_terms
          (withCongruence s term func (s.flattenArgs func args) existing)
        exact ⟨kept.nodes.trans extended.nodes, kept.terms.trans extended.terms,
          kept.properties.trans extended.properties⟩
      · rw [Op.run, state]
        exact ⟨extended.nodes, extended.terms, extended.properties⟩
  | merge a b reason =>
    obtain ⟨nodes, terms, properties⟩ := propagate_terms
      { s with explCache := [], pending := (a, b, .assertion reason) :: s.pending }
    exact ⟨nodes, terms, properties⟩
  | assertDiseq a b reason => exact ⟨rfl, rfl, rfl⟩
  | push => cases inner
  | pop => cases inner
  | find a => exact ⟨rfl, rfl, rfl⟩
  | explainEquality a b =>
    obtain ⟨cache, state⟩ := tryExplainEquality_state s a b
    rw [Op.run, state]
    exact ⟨rfl, rfl, rfl⟩
  | explainDiseq a b =>
    obtain ⟨uf, cache, _, state⟩ := tryExplainDiseq_state inv.uf a b
    rw [Op.run, state]
    exact ⟨rfl, rfl, rfl⟩
  | checkConflicts =>
    obtain ⟨cache, state⟩ := checkConflicts_state s
    rw [Op.run, state]
    exact ⟨rfl, rfl, rfl⟩

theorem SameTerms.legal {other : EufSolver} (same : SameTerms s other) (op : Op) :
    op.Legal s ↔ op.Legal other := by
  cases op <;> simp only [Op.Legal, same.nodes]

theorem SameTerms.gained {other after otherAfter : EufSolver} {node : Option ENode}
    (same : SameTerms s other) (gains : s.Gained after node)
    (otherGains : other.Gained otherAfter node) : SameTerms after otherAfter := by
  cases node with
  | none =>
    exact ⟨gains.nodes.trans (same.nodes.trans otherGains.nodes.symm),
      gains.terms.trans (same.terms.trans otherGains.terms.symm),
      gains.properties.trans (same.properties.trans otherGains.properties.symm)⟩
  | some node =>
    obtain ⟨nodes, terms, properties⟩ := gains
    obtain ⟨nodes', terms', properties'⟩ := otherGains
    exact ⟨by rw [nodes, nodes', same.nodes], by rw [terms, terms', same.terms, same.nodes],
      by rw [properties, properties', same.properties]⟩

/-- The state has the terms that its live calls create in a new solver. -/
structure Replayed (properties : Nat → FunctionProperties) (live : List Op) (s : EufSolver) :
    Prop where
  legal : LegalHistory properties live
  terms : SameTerms s (replay properties live)
  kept : s.functionProperties = properties
  settled : (replay properties live).pending = []
  sound : Sound (replay properties live) (mergesOf live) []

theorem Allowed.replayed {condition : EufSolver → Op → Prop}
    {properties : Nat → FunctionProperties} {history : List Op}
    (allowed : Allowed condition properties history) :
    ∃ saved, Holds (Replayed properties) (liveCalls history) (replay properties history) saved := by
  refine Allowed.holds ⟨trivial, ⟨rfl, rfl, rfl⟩, rfl, rfl, Sound.new properties⟩ ?_ ?_ ?_ allowed
  · intro op live s saved inner legal _ holds
    obtain ⟨legalLive, same, props, settled, sound⟩ := holds.property
    have legal' := (same.legal op).mp legal
    obtain ⟨settled', sound'⟩ := sound.run settled legal' inner
    have gained := holds.sound.gained legal inner
    have gained' := sound.gained legal' inner
    rw [← created_congr same] at gained'
    exact ⟨⟨legalLive, legal', trivial⟩, same.gained gained gained', gained.properties.trans props,
      settled', sound'⟩
  · intro live s saved holds
    obtain ⟨legal, same, props, settled, sound⟩ := holds.property
    exact ⟨legal, { same with }, props, settled, sound⟩
  · intro live after before core _ old
    exact { old with
      terms := ⟨core.nodes.trans old.terms.nodes, core.terms.trans old.terms.terms,
        core.properties.trans old.terms.properties⟩
      kept := core.properties.trans old.kept }

theorem SameTerms.follows {other : EufSolver} {equations : Nat → Nat → Prop}
    (same : SameTerms s other) : Follows s equations = Follows other equations := by
  rw [Follows, Follows, same.nodes, same.properties]

/-- The classes are the congruence closure of the live equalities, and a replay of the live calls
gives the same terms and the same classes. -/
theorem classes_closure {properties : Nat → FunctionProperties} {history : List Op}
    (legal : LegalHistory properties history) :
    LegalHistory properties (liveCalls history) ∧
    (replay properties history).nodes = (replay properties (liveCalls history)).nodes ∧
    (replay properties history).termToNode = (replay properties (liveCalls history)).termToNode ∧
    ∀ a b, ((replay properties history).areEqual a b = true ↔
        Closure (appOf (replay properties history).nodes) (fun func => (properties func).commutative)
          (Asserted (mergesOf (liveCalls history))) a b) ∧
      (replay properties history).areEqual a b =
        (replay properties (liveCalls history)).areEqual a b := by
  obtain ⟨saved, settled, sound, replayed⟩ := Allowed.replayed legal
  obtain ⟨log, inv⟩ := sound.inv
  obtain ⟨log', inv'⟩ := replayed.sound.inv
  refine ⟨replayed.legal, replayed.terms.nodes, replayed.terms.terms, fun a b => ?_⟩
  have equal := inv.root_eq_iff settled a b
  have equal' := inv'.root_eq_iff replayed.settled a b
  rw [← replayed.terms.follows] at equal'
  have closure : Follows (replay properties history) (Asserted (mergesOf (liveCalls history))) =
      Closure (appOf (replay properties history).nodes) (fun func => (properties func).commutative)
        (Asserted (mergesOf (liveCalls history))) := by
    rw [Follows, replayed.kept]
  rw [← closure]
  constructor
  · rw [areEqual, decide_eq_true_eq]
    exact equal
  · rw [areEqual, areEqual, decide_eq_decide]
    exact equal.trans equal'.symm

def plain : Nat → FunctionProperties := fun _ => .default

/-- A congruence is found and closed with its scope, and found again among reused nodes. -/
def reusedNodes : List Op :=
  [.merge 0 1 6, .internApp 11 5 [1], .internApp 10 5 [0], .pop, .internApp 11 5 [1],
    .internApp 12 5 [0], .merge 0 1 5, .push, .intern 2, .intern 1]

/-- The two applications are equal by congruence from the live equality. -/
theorem reusedNodes_closure : (replay plain reusedNodes).areEqual 2 3 = true ∧
      Closure (appOf (replay plain reusedNodes).nodes) (fun func => (plain func).commutative)
        (Asserted [(0, 1, 6)]) 2 3 := by
  have legal : LegalHistory plain reusedNodes := by decide +kernel
  have equal : (replay plain reusedNodes).areEqual 2 3 = true := by decide +kernel
  exact ⟨equal, ((classes_closure legal).2.2.2 2 3).1.mp equal⟩

end Nixie.Euf
