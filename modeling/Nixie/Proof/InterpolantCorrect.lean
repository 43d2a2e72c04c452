import Mathlib.Data.Set.BooleanAlgebra
import Nixie.Logic.Interpolation
import Nixie.Proof.InterpolantForms

/-! Extracted interpolants lie between the sides, unless a keyword is resolved on as an atom. -/

namespace Nixie.Craig

open List Function

variable {classes : CharClasses} {ext : InterpolantExtractor} {proof : Proof}

def SideClause (ext : InterpolantExtractor) (proof : Proof) (side : Color) (conclusion : Text) :
    Prop :=
  .ax conclusion ∈ proof.nodes ∧ ext.directColor conclusion = some side

/-- The assignments under which the clauses of a side hold. -/
def SideModels (classes : CharClasses) (ext : InterpolantExtractor) (proof : Proof)
    (side : Color) : Set (Text → Bool) :=
  { ν | ∀ conclusion, SideClause ext proof side conclusion → ClauseHolds classes ν conclusion }

/-- The atom occurs in a clause. -/
def Occurs (classes : CharClasses) (atom conclusion : Text) : Prop :=
  ∃ lit ∈ parseClauseLiterals classes conclusion, lit.atom = atom

/-- A node rests on an axiom of a side. -/
inductive RestsOn (ext : InterpolantExtractor) (proof : Proof) (side : Color) : Nat → Prop
  | ax {id : Nat} {conclusion : Text} (step : proof.getNode id = some (.ax conclusion))
      (color : ext.directColor conclusion = some side) : RestsOn ext proof side id
  | premise {id premise : Nat} {rule conclusion : Text} {premises : List Nat}
      (step : proof.getNode id = some (.inference rule premises conclusion))
      (member : premise ∈ premises) (rests : RestsOn ext proof side premise) :
      RestsOn ext proof side id

/-- All axioms are on one side, and all inferences are binary resolution. -/
structure Refutation (classes : CharClasses) (ext : InterpolantExtractor) (proof : Proof) :
    Prop where
  sides : ∀ conclusion, .ax conclusion ∈ proof.nodes →
    ext.directColor conclusion = some .a ∨ ext.directColor conclusion = some .b
  resolution : ∀ rule premises conclusion, .inference rule premises conclusion ∈ proof.nodes →
    ∃ p1 p2 n1 n2, premises = [p1, p2] ∧ proof.getNode p1 = some n1 ∧
      proof.getNode p2 = some n2 ∧ ∃ atom sign, (atom, sign) ∈ literals classes n1.conclusion ∧
        (atom, !sign) ∈ literals classes n2.conclusion ∧
        literals classes conclusion = binaryResolvent atom sign (literals classes n1.conclusion)
            (literals classes n2.conclusion)

inductive Below (proof : Proof) (root : Nat) : Nat → Prop
  | root : Below proof root root
  | premise {id premise : Nat} {rule conclusion : Text} {premises : List Nat}
      (below : Below proof root id)
      (step : proof.getNode id = some (.inference rule premises conclusion))
      (member : premise ∈ premises) : Below proof root premise

/--
No step that rests on both sides resolves on a keyword that is an atom of the second side.

Only the steps that the root is derived from count.
-/
def NoKeywordPivot (classes : CharClasses) (ext : InterpolantExtractor) (proof : Proof) : Prop :=
  ∀ root id rule p1 p2 conclusion n1 n2, proof.root = some root → Below proof root id →
    proof.getNode id = some (.inference rule [p1, p2] conclusion) →
    proof.getNode p1 = some n1 → proof.getNode p2 = some n2 →
    RestsOn ext proof .a id → RestsOn ext proof .b id →
    ∀ atom ∈ complementary classes n1.conclusion n2.conclusion, atom ∈ keywords →
      ∀ clause, SideClause ext proof .b clause → ¬Occurs classes atom clause

/-- The extracted text is that of a formula between the sides, over the symbols of both. -/
def Interpolates (classes : CharClasses) (ext : InterpolantExtractor) (proof : Proof)
    (itp : Interpolant) (ext' : InterpolantExtractor) : Prop :=
  ∃ root form, proof.root = some root ∧ ext'.partialInterpolants root = some form ∧
    itp.formula = form.render ∧
    (∀ ν ∈ SideModels classes ext proof .a, form.eval classes ν) ∧
    (∀ ν ∈ SideModels classes ext proof .b, ¬form.eval classes ν) ∧
    ∀ s ∈ itp.symbols, (∃ clause, SideClause ext proof .a clause ∧ s ∈ clauseSymbols classes clause) ∧
      ∃ clause, SideClause ext proof .b clause ∧ s ∈ clauseSymbols classes clause

variable (classes) in
theorem addAxiom_same (ext : InterpolantExtractor) (id : Nat) (step : ProofStep) :
    (ext.addAxiom classes id step).partition = ext.partition ∧
      (ext.addAxiom classes id step).premiseId = ext.premiseId := by
  cases step with
  | inference rule premises conclusion => exact ⟨rfl, rfl⟩
  | ax conclusion =>
    rw [InterpolantExtractor.addAxiom]
    cases ext.directColor conclusion with
    | none => exact ⟨rfl, rfl⟩
    | some color => exact ⟨rfl, rfl⟩

theorem directColor_congr {ext' : InterpolantExtractor} (partition : ext'.partition = ext.partition)
    (premiseId : ext'.premiseId = ext.premiseId) (conclusion : Text) :
    ext'.directColor conclusion = ext.directColor conclusion := by
  rw [InterpolantExtractor.directColor, InterpolantExtractor.directColor, partition, premiseId]

/-- What the axioms of a list of nodes contribute. -/
structure Collected (classes : CharClasses) (ext ext' : InterpolantExtractor) (id : Nat)
    (nodes : List ProofStep) : Prop where
  partition : ext'.partition = ext.partition
  premiseId : ext'.premiseId = ext.premiseId
  aVocab : ∀ s, s ∈ ext'.aVocab ↔ s ∈ ext.aVocab ∨ ∃ conclusion color, .ax conclusion ∈ nodes ∧
    ext.directColor conclusion = some color ∧ color ≠ .b ∧ s ∈ clauseSymbols classes conclusion
  bVocab : ∀ s, s ∈ ext'.bVocab ↔ s ∈ ext.bVocab ∨ ∃ conclusion color, .ax conclusion ∈ nodes ∧
    ext.directColor conclusion = some color ∧ color ≠ .a ∧ s ∈ clauseSymbols classes conclusion
  direct : ∀ k conclusion color, nodes[k]? = some (.ax conclusion) →
    ext.directColor conclusion = some color → ext'.directAxiomColors (id + k) = some color
  before : ∀ i < id, ext'.directAxiomColors i = ext.directAxiomColors i

theorem addAxiom_collected (ext : InterpolantExtractor) (id : Nat) (step : ProofStep) :
    Collected classes ext (ext.addAxiom classes id step) id [step] := by
  obtain ⟨partition, premiseId⟩ := addAxiom_same classes ext id step
  cases step with
  | inference rule premises conclusion =>
    refine ⟨partition, premiseId, ?_, ?_, ?_, fun _ _ => rfl⟩
    · simp [InterpolantExtractor.addAxiom]
    · simp [InterpolantExtractor.addAxiom]
    · intro k conclusion color found
      cases k with
      | zero => cases found
      | succ k => cases found
  | ax conclusion =>
    rw [InterpolantExtractor.addAxiom] at partition premiseId ⊢
    cases known : ext.directColor conclusion with
    | none =>
      refine ⟨rfl, rfl, ?_, ?_, ?_, fun _ _ => rfl⟩
      · simp [known]
      · simp [known]
      · intro k conclusion' color found
        cases k with
        | zero =>
          cases found
          simp [known]
        | succ k => cases found
    | some color =>
      refine ⟨rfl, rfl, ?_, ?_, ?_, ?_⟩
      · intro s
        by_cases second : color = .b
        · simp [second, known]
        · simp [second, known]
      · intro s
        by_cases first : color = .a
        · simp [first, known]
        · simp [first, known]
      · intro k conclusion' color' found same
        cases k with
        | zero =>
          cases found
          rw [known] at same
          rw [Nat.add_zero, ← same]
          exact update_self ..
        | succ k => cases found
      · intro i below
        exact update_of_ne (Nat.ne_of_lt below) ..

theorem Collected.cons {ext ext' ext'' : InterpolantExtractor} {id : Nat} {step : ProofStep}
    {rest : List ProofStep} (head : Collected classes ext ext' id [step])
    (tail : Collected classes ext' ext'' (id + 1) rest) :
    Collected classes ext ext'' id (step :: rest) := by
  have same := directColor_congr head.partition head.premiseId
  have tailA := tail.aVocab
  have tailB := tail.bVocab
  have direct := tail.direct
  simp only [same] at tailA tailB direct
  refine ⟨tail.partition.trans head.partition, tail.premiseId.trans head.premiseId,
    fun s => ?_, fun s => ?_, ?_, fun i below => ?_⟩
  · rw [tailA, head.aVocab]
    simp only [mem_cons, not_mem_nil, or_false, or_and_right, exists_or, or_assoc]
  · rw [tailB, head.bVocab]
    simp only [mem_cons, not_mem_nil, or_false, or_and_right, exists_or, or_assoc]
  · intro k conclusion color found known
    cases k with
    | zero =>
      rw [Nat.add_zero, tail.before id (Nat.lt_succ_self _)]
      exact head.direct 0 conclusion color found known
    | succ k =>
      have later := direct k conclusion color found known
      rwa [Nat.add_assoc, Nat.add_comm 1 k] at later
  · rw [tail.before i (Nat.lt_succ_of_lt below), head.before i below]

variable (classes) in
theorem addAxioms_collected (nodes : List ProofStep) : ∀ (ext : InterpolantExtractor) (id : Nat),
    Collected classes ext (ext.addAxioms classes id nodes) id nodes := by
  induction nodes with
  | nil =>
    intro ext id
    refine ⟨rfl, rfl, ?_, ?_, ?_, fun _ _ => rfl⟩
    · simp [InterpolantExtractor.addAxioms]
    · simp [InterpolantExtractor.addAxioms]
    · intro k conclusion color found
      simp at found
  | cons step rest ih =>
    intro ext id
    exact (addAxiom_collected ext id step).cons (ih _ _)

/-- What an extraction knows of the sides. -/
structure Partitioned (classes : CharClasses) (ext ext' : InterpolantExtractor) (proof : Proof) :
    Prop where
  aVocab : ∀ s, s ∈ ext'.aVocab ↔ ∃ clause, SideClause ext proof .a clause ∧
    s ∈ clauseSymbols classes clause
  bVocab : ∀ s, s ∈ ext'.bVocab ↔ ∃ clause, SideClause ext proof .b clause ∧
    s ∈ clauseSymbols classes clause
  shared : ∀ s, s ∈ ext'.shared ↔ s ∈ ext'.aVocab ∧ s ∈ ext'.bVocab
  direct : ∀ id conclusion color, proof.getNode id = some (.ax conclusion) →
    ext.directColor conclusion = some color → ext'.directAxiomColors id = some color

variable (classes) in
theorem precompute_partitioned (ext : InterpolantExtractor) (proof : Proof)
    (sides : ∀ conclusion, .ax conclusion ∈ proof.nodes →
      ext.directColor conclusion = some .a ∨ ext.directColor conclusion = some .b) :
    Partitioned classes ext (ext.precomputeAxiomPartition classes proof) proof := by
  let fresh : InterpolantExtractor :=
    { ext with directAxiomColors := fun _ => none, aVocab := [], bVocab := [] }
  have collected := addAxioms_collected classes proof.nodes fresh 0
  have same : ∀ conclusion, fresh.directColor conclusion = ext.directColor conclusion :=
    fun _ => rfl
  constructor
  · intro s
    refine (collected.aVocab s).trans ⟨?_, ?_⟩
    · rintro (none | ⟨conclusion, color, mem, known, other, here⟩)
      · cases none
      · rw [same] at known
        refine ⟨conclusion, ⟨mem, ?_⟩, here⟩
        rcases sides conclusion mem with first | second
        · exact first
        · exact absurd (Option.some.inj (known.symm.trans second)) other
    · rintro ⟨clause, ⟨mem, known⟩, here⟩
      exact .inr ⟨clause, .a, mem, known, by decide, here⟩
  · intro s
    refine (collected.bVocab s).trans ⟨?_, ?_⟩
    · rintro (none | ⟨conclusion, color, mem, known, other, here⟩)
      · cases none
      · rw [same] at known
        refine ⟨conclusion, ⟨mem, ?_⟩, here⟩
        rcases sides conclusion mem with first | second
        · exact absurd (Option.some.inj (known.symm.trans first)) other
        · exact second
    · rintro ⟨clause, ⟨mem, known⟩, here⟩
      exact .inr ⟨clause, .b, mem, known, by decide, here⟩
  · intro s
    rw [InterpolantExtractor.precomputeAxiomPartition, mem_filter, contains_iff_mem]
  · intro id conclusion color found known
    have direct := collected.direct id conclusion color found known
    rwa [Nat.zero_add] at direct

def WalkFrame.node : WalkFrame → Nat
  | .enter id => id
  | .exit id => id

theorem walk_good {β : Type} {visitor : Visitor β} (Good : Nat → β → Prop) {root : Nat}
    (leaf : ∀ id conclusion value, proof.getNode id = some (.ax conclusion) →
      visitor.leaf id conclusion = .ok value → Good id value)
    (node : ∀ done id rule premises conclusion value,
      Below proof root id → proof.getNode id = some (.inference rule premises conclusion) →
      (∀ i v, done i = some v → Good i v) → visitor.node done id rule premises = .ok value →
      Good id value) (fuel : Nat) :
    ∀ {stack : List WalkFrame} {inProgress : List Nat} {done out : Nat → Option β},
      (∀ frame ∈ stack, Below proof root frame.node) → (∀ i v, done i = some v → Good i v) →
      walk visitor proof fuel stack inProgress done = some (.ok out) →
      ∀ i v, out i = some v → Good i v := by
  have stored : ∀ {done : Nat → Option β} {id : Nat} {value : β},
      (∀ i v, done i = some v → Good i v) → Good id value →
      ∀ i v, update done id (some value) i = some v → Good i v := by
    intro done id value good here i v found
    by_cases same : i = id
    · subst same
      rw [update_self] at found
      exact Option.some.inj found ▸ here
    · rw [update_of_ne same] at found
      exact good i v found
  induction fuel with
  | zero =>
    intro stack inProgress done out reached good walked
    cases stack with
    | nil =>
      rw [walk] at walked
      cases walked
      exact good
    | cons frame stack => cases walked
  | succ fuel ih =>
    intro stack inProgress done out reached good walked
    cases stack with
    | nil =>
      rw [walk] at walked
      cases walked
      exact good
    | cons frame stack =>
      have later : ∀ frame ∈ stack, Below proof root frame.node :=
        fun frame mem => reached frame (mem_cons_of_mem _ mem)
      cases frame with
      | enter id =>
        rw [walk] at walked
        by_cases seen : (done id).isSome
        · rw [if_pos seen] at walked
          exact ih later good walked
        · rw [if_neg seen] at walked
          split at walked
          · cases walked
          · rename_i conclusion step
            split at walked
            · cases walked
            · rename_i value computed
              exact ih later (stored good (leaf id conclusion value step computed)) walked
          · rename_i rule premises conclusion step
            have below : Below proof root id := reached _ mem_cons_self
            split at walked
            · cases walked
            · refine ih (fun frame mem => ?_) good walked
              rcases mem_append.mp mem with first | rest
              · obtain ⟨premise, among, rfl⟩ := mem_map.mp first
                exact below.premise step among
              · rcases mem_cons.mp rest with rfl | rest
                · exact below
                · exact later frame rest
      | exit id =>
        rw [walk] at walked
        split at walked
        · cases walked
        · exact ih later good walked
        · rename_i rule premises conclusion step
          split at walked
          · cases walked
          · rename_i value computed
            have below : Below proof root id := reached _ mem_cons_self
            exact ih later (stored good
              (node done id rule premises conclusion value below step good computed)) walked

theorem entered (root : Nat) : ∀ frame ∈ [WalkFrame.enter root], Below proof root frame.node := by
  intro frame mem
  rw [mem_singleton.mp mem]
  exact .root

variable {conclusion : Text}

theorem walk_colors {ext' : InterpolantExtractor} (known : Partitioned classes ext ext' proof)
    (sides : ∀ conclusion, .ax conclusion ∈ proof.nodes →
      ext.directColor conclusion = some .a ∨ ext.directColor conclusion = some .b)
    {fuel root : Nat} {colors : Nat → Option Color}
    (walked : walk (ext'.colorVisitor classes) proof fuel [.enter root] [] (fun _ => none) =
      some (.ok colors)) {id : Nat} {color : Color}
    (step : proof.getNode id = some (.ax conclusion)) (found : colors id = some color) :
    ext.directColor conclusion = some color := by
  refine walk_good (fun id color => ∀ conclusion,
    proof.getNode id = some (.ax conclusion) → ext.directColor conclusion = some color)
    ?_ ?_ fuel (entered root) (fun _ _ none => by cases none) walked id color found conclusion step
  · intro id conclusion color step computed conclusion' step'
    obtain rfl : conclusion = conclusion' := by
      rw [step] at step'
      cases step'
      rfl
    have direct : ∀ direct, ext.directColor conclusion = some direct →
        ext.directColor conclusion = some color := by
      intro direct same
      have stored := known.direct id conclusion direct step same
      cases computed
      rw [InterpolantExtractor.colorAxiom, stored]
      exact same
    exact (sides conclusion (mem_of_getElem? step)).elim (direct _) (direct _)
  · intro done id rule premises conclusion color _ step _ _ conclusion' step'
    rw [step] at step'
    cases step'

section

variable {ext' : InterpolantExtractor}

variable (classes ext') in
/-- The atoms with symbols, all of which the second side has. -/
def strictAtoms : Set Text :=
  { atom | extractSymbols classes atom ≠ [] ∧ ∀ s ∈ extractSymbols classes atom, s ∈ ext'.bVocab }

variable (classes ext ext' proof) in
/-- The atoms of the second side: atoms without symbols that occur there are among them. -/
def rightAtoms : Set Text :=
  strictAtoms classes ext' ∪ { atom | extractSymbols classes atom = [] ∧
    ∃ clause, SideClause ext proof .b clause ∧ Occurs classes atom clause }

variable (classes ext ext' proof) in
/-- What the partial interpolant of a node is. -/
structure Good (id : Nat) (form : IForm) : Prop where
  partially : ∀ step, proof.getNode id = some step →
    PartialInterpolant (SideModels classes ext proof .a) (SideModels classes ext proof .b)
      (strictAtoms classes ext')ᶜ (rightAtoms classes ext proof ext')
      (literals classes step.conclusion) { ν | form.eval classes ν }
  first : ¬RestsOn ext proof .b id → ∀ step, proof.getNode id = some step →
    PartialInterpolant (SideModels classes ext proof .a) (SideModels classes ext proof .b)
      (strictAtoms classes ext')ᶜ (strictAtoms classes ext')
      (literals classes step.conclusion) { ν | form.eval classes ν }
  second : ¬RestsOn ext proof .a id → (∀ ν, form.eval classes ν) ∧
    ∀ step, proof.getNode id = some step → (∀ ν ∈ SideModels classes ext proof .b,
        SomeHolds (literals classes step.conclusion) Set.univ ν) ∧
      ∀ l ∈ literals classes step.conclusion, l.1 ∈ rightAtoms classes ext proof ext'
  symbols : ∀ text ∈ form.texts, ∀ s ∈ extractSymbols classes text, s ∈ ext'.shared

theorem clauseHolds_iff {ν : Text → Bool} :
    ClauseHolds classes ν conclusion ↔ ∃ l ∈ literals classes conclusion, ν l.1 = l.2 := by
  constructor
  · rintro ⟨lit, mem, holds⟩
    exact ⟨_, ⟨lit, mem, rfl⟩, holds⟩
  · rintro ⟨_, ⟨lit, mem, rfl⟩, holds⟩
    exact ⟨lit, mem, holds⟩

variable {lit : ClauseLiteral}

theorem eval_toIForm (mem : lit ∈ parseClauseLiterals classes conclusion) (ν : Text → Bool) :
    lit.toIForm.eval classes ν ↔ ν lit.atom = lit.positive := by
  obtain ⟨isAtom, -⟩ := parseClauseLiterals_spec mem
  rw [ClauseLiteral.toIForm]
  cases sign : lit.positive with
  | true =>
    obtain ⟨same, sign'⟩ := Prod.mk.inj (parseLiteral_atom isAtom)
    rw [if_pos rfl, IForm.eval, same, sign']
  | false =>
    obtain ⟨same, sign'⟩ := Prod.mk.inj (parseLiteral_not isAtom)
    rw [if_neg Bool.false_ne_true, IForm.eval, same, sign']

theorem texts_toIForm {text : Text} (mem : text ∈ lit.toIForm.texts) :
    extractSymbols classes text = extractSymbols classes lit.atom := by
  rw [ClauseLiteral.toIForm] at mem
  split_ifs at mem
  · rw [mem_singleton.mp mem]
  · rw [mem_singleton.mp mem, extractSymbols_not]

theorem mem_clauseSymbols {conclusion : Text} {lit : ClauseLiteral}
    (mem : lit ∈ parseClauseLiterals classes conclusion) {s : Text} (symbol : s ∈ lit.symbols) :
    s ∈ clauseSymbols classes conclusion :=
  mem_flatMap.mpr ⟨lit, mem, symbol⟩

theorem mem_rightAtoms (known : Partitioned classes ext ext' proof)
    (side : SideClause ext proof .b conclusion)
    (mem : lit ∈ parseClauseLiterals classes conclusion) :
    lit.atom ∈ rightAtoms classes ext proof ext' := by
  obtain ⟨-, symbols⟩ := parseClauseLiterals_spec mem
  by_cases none : extractSymbols classes lit.atom = []
  · exact .inr ⟨none, conclusion, side, lit, mem, rfl⟩
  · refine .inl ⟨none, fun s symbol => ?_⟩
    exact (known.bVocab s).mpr ⟨conclusion, side, mem_clauseSymbols mem (symbols ▸ symbol)⟩

theorem kept_iff (known : Partitioned classes ext ext' proof)
    (side : SideClause ext proof .a conclusion)
    (mem : lit ∈ parseClauseLiterals classes conclusion) :
    (!lit.symbols.isEmpty && lit.symbols.all ext'.shared.contains) = true ↔
      lit.atom ∈ strictAtoms classes ext' := by
  obtain ⟨-, symbols⟩ := parseClauseLiterals_spec mem
  rw [strictAtoms, Set.mem_ofPred_eq, ← symbols, Bool.and_eq_true, Bool.not_eq_true',
    ← Bool.not_eq_true, List.isEmpty_iff, List.all_eq_true]
  refine and_congr_right fun _ => forall₂_congr fun s symbol => ?_
  rw [contains_iff_mem, known.shared]
  exact and_iff_right ((known.aVocab s).mpr ⟨conclusion, side, mem_clauseSymbols mem symbol⟩)

theorem good_axiom_a (known : Partitioned classes ext ext' proof) {id : Nat}
    (step : proof.getNode id = some (.ax conclusion))
    (color : ext.directColor conclusion = some .a) {form : IForm}
    (computed : ext'.axiomInterpolant classes id .a conclusion = .ok form) :
    Good classes ext proof ext' id form := by
  have side : SideClause ext proof .a conclusion := ⟨mem_of_getElem? step, color⟩
  let kept := (parseClauseLiterals classes conclusion).filter fun lit =>
    !lit.symbols.isEmpty && lit.symbols.all ext'.shared.contains
  -- Without literals the disjunction is false as well.
  have same : form = IForm.mkOr (kept.map ClauseLiteral.toIForm) := by
    rw [InterpolantExtractor.axiomInterpolant] at computed
    refine (Except.ok.inj computed).symm.trans ?_
    split_ifs with empty
    · rw [isEmpty_iff.mp empty]
      rfl
    · rfl
  have means : { ν | form.eval classes ν } =
      { ν | SomeHolds (literals classes conclusion) (strictAtoms classes ext') ν } := by
    ext ν
    rw [Set.mem_ofPred_eq, Set.mem_ofPred_eq, same, IForm.eval_mkOr]
    constructor
    · rintro ⟨_, mem, holds⟩
      obtain ⟨lit, inKept, rfl⟩ := mem_map.mp mem
      obtain ⟨inClause, keep⟩ := mem_filter.mp inKept
      exact ⟨_, ⟨lit, inClause, rfl⟩, (kept_iff known side inClause).mp keep,
        (eval_toIForm inClause ν).mp holds⟩
    · rintro ⟨_, ⟨lit, inClause, rfl⟩, strict, holds⟩
      refine ⟨lit.toIForm, mem_map.mpr ⟨lit, mem_filter.mpr ⟨inClause, ?_⟩, rfl⟩,
        (eval_toIForm inClause ν).mpr holds⟩
      exact (kept_iff known side inClause).mpr strict
  have first : PartialInterpolant (SideModels classes ext proof .a)
      (SideModels classes ext proof .b) (strictAtoms classes ext')ᶜ (strictAtoms classes ext')
      (literals classes conclusion) { ν | form.eval classes ν } := by
    rw [means]
    exact .first (fun ν models => clauseHolds_iff.mp (models conclusion side)) fun _ _ outside => outside
  refine ⟨fun step' found => ?_, fun _ step' found => ?_, fun none => ?_, fun text mem s symbol
    => ?_⟩
  · obtain rfl := Option.some.inj (step.symm.trans found)
    exact first.mono (fun _ outside => outside) fun _ => .inl
  · obtain rfl := Option.some.inj (step.symm.trans found)
    exact first
  · exact absurd (.ax step color) none
  · rw [same] at mem
    obtain ⟨_, inTerms, inText⟩ := IForm.texts_mkOr mem
    obtain ⟨lit, inKept, rfl⟩ := mem_map.mp inTerms
    obtain ⟨inClause, keep⟩ := mem_filter.mp inKept
    obtain ⟨-, symbols⟩ := parseClauseLiterals_spec inClause
    rw [texts_toIForm inText, ← symbols] at symbol
    exact contains_iff_mem.mp (all_eq_true.mp (Bool.and_eq_true_iff.mp keep).2 s symbol)

theorem good_axiom_b (known : Partitioned classes ext ext' proof) {id : Nat}
    (step : proof.getNode id = some (.ax conclusion))
    (color : ext.directColor conclusion = some .b) :
    Good classes ext proof ext' id .true_ := by
  have side : SideClause ext proof .b conclusion := ⟨mem_of_getElem? step, color⟩
  have covers : ∀ l ∈ literals classes conclusion, l.1 ∈ rightAtoms classes ext proof ext' := by
    rintro _ ⟨lit, mem, rfl⟩
    exact mem_rightAtoms known side mem
  have holds : ∀ ν ∈ SideModels classes ext proof .b,
      ∃ l ∈ literals classes conclusion, ν l.1 = l.2 :=
    fun ν models => clauseHolds_iff.mp (models conclusion side)
  have means : { ν | IForm.eval classes ν .true_ } = Set.univ := rfl
  refine ⟨fun step' found => ?_, fun none => ?_, fun _ => ⟨fun _ => trivial, fun step' found => ?_⟩,
    fun text mem => nomatch mem⟩
  · obtain rfl := Option.some.inj (step.symm.trans found)
    rw [means]
    exact .second holds covers
  · exact absurd (.ax step color) none
  · obtain rfl := Option.some.inj (step.symm.trans found)
    refine ⟨fun ν models => ?_, covers⟩
    obtain ⟨l, mem, holds⟩ := holds ν models
    exact ⟨l, mem, trivial, holds⟩

theorem resolutionInterpolant_cases {done : Nat → Option IForm} {id : Nat} {rule : Text}
    {premises : List Nat} {form : IForm}
    (computed : ext'.resolutionInterpolant classes proof done id rule premises = .ok form) :
    ∃ p1 p2 n1 n2 pivot locality i1 i2, premises = [p1, p2] ∧ proof.getNode p1 = some n1 ∧
      proof.getNode p2 = some n2 ∧ findPivot classes n1.conclusion n2.conclusion = some pivot ∧
      ext'.classifyPivot classes pivot = .ok locality ∧ done p1 = some i1 ∧ done p2 = some i2 ∧
      form = if locality = .aLocal then .mkOr [i1, i2] else .mkAnd [i1, i2] := by
  unfold InterpolantExtractor.resolutionInterpolant at computed
  split at computed
  · cases computed
  · split at computed
    · rename_i p1 p2
      split at computed
      · cases computed
      · rename_i n1 found1
        split at computed
        · cases computed
        · rename_i n2 found2
          split at computed
          · cases computed
          · rename_i pivot unique
            split at computed
            · cases computed
            · rename_i locality side
              split at computed
              · cases computed
              · rename_i i1 done1
                split at computed
                · cases computed
                · rename_i i2 done2
                  refine ⟨p1, p2, n1, n2, pivot, locality, i1, i2, rfl, found1, found2, unique,
                    side, done1, done2, ?_⟩
                  rw [← Except.ok.inj computed]
                  cases locality with
                  | aLocal => rfl
                  | bLocal => rfl
                  | global => rfl
    · cases computed

theorem pivot_eq {clause clause' atom pivot : Text} {sign : Bool}
    (here : (atom, sign) ∈ literals classes clause)
    (there : (atom, !sign) ∈ literals classes clause')
    (found : findPivot classes clause clause' = some pivot) :
    pivot = atom ∧ atom ∈ complementary classes clause clause' ∧ AtomText classes atom := by
  obtain ⟨la, mem, same⟩ := here
  obtain ⟨lb, mem', same'⟩ := there
  obtain ⟨rfl, rfl⟩ := Prod.mk.inj same
  obtain ⟨atoms, signs⟩ := Prod.mk.inj same'
  have lies : la.atom ∈ complementary classes clause clause' := by
    refine mem_flatMap.mpr ⟨la, mem, mem_filterMap.mpr ⟨lb, mem', if_pos ⟨?_, ?_⟩⟩⟩
    · exact atoms.symm
    · rw [signs]
      exact (Bool.not_ne_self la.positive).symm
  refine ⟨?_, lies, (parseClauseLiterals_spec mem).1⟩
  rw [findPivot] at found
  have listed := mem_dedup.mpr lies
  split at found
  · rename_i atom only
    rw [only] at listed
    obtain rfl := Option.some.inj found
    exact (mem_singleton.mp listed).symm
  · cases found

theorem not_keyword_of_bVocab (known : Partitioned classes ext ext' proof) {s : Text}
    (mem : s ∈ ext'.bVocab) : s ∉ keywords := by
  obtain ⟨clause, -, symbol⟩ := (known.bVocab s).mp mem
  obtain ⟨lit, inClause, symbol⟩ := mem_flatMap.mp symbol
  rw [(parseClauseLiterals_spec inClause).2] at symbol
  exact not_keyword_of_mem _ _ symbol

theorem classifyPivot_spec (known : Partitioned classes ext ext' proof) {atom : Text}
    (isAtom : AtomText classes atom) {locality : Locality}
    (side : ext'.classifyPivot classes atom = .ok locality) :
    (locality = .aLocal → atom ∉ strictAtoms classes ext' ∧
      (atom ∈ rightAtoms classes ext proof ext' → atom ∈ keywords ∧
        ∃ clause, SideClause ext proof .b clause ∧ Occurs classes atom clause)) ∧
      (locality ≠ .aLocal → atom ∈ strictAtoms classes ext') := by
  rw [InterpolantExtractor.classifyPivot, isAtom.trimmed.trim_eq] at side
  split at side
  · rename_i identifier
    rw [Bool.and_eq_true, Bool.and_eq_true, Bool.not_eq_true', Bool.not_eq_true'] at identifier
    have symbols := extractSymbols_identifier identifier.1.1 identifier.1.2 identifier.2
    have inVocab : locality ≠ .aLocal → atom ∈ ext'.bVocab := by
      intro other
      split_ifs at side with inShared inB
      · exact ((known.shared atom).mp (contains_iff_mem.mp inShared)).2
      · exact contains_iff_mem.mp inB
      · exact absurd (Except.ok.inj side).symm other
    have notVocab : locality = .aLocal → atom ∉ ext'.bVocab := by
      rintro rfl lies
      rw [contains_iff_mem.mpr lies, if_pos rfl] at side
      split_ifs at side
      all_goals cases side
    refine ⟨fun here => ?_, fun other => ?_⟩
    · have outside : atom ∉ strictAtoms classes ext' := by
        rintro ⟨some_symbol, all⟩
        rw [symbols] at some_symbol all
        split_ifs at some_symbol all
        · exact some_symbol rfl
        · exact notVocab here (all atom (mem_singleton_self atom))
      refine ⟨outside, fun right => ?_⟩
      obtain ⟨none, occurs⟩ := right.resolve_left outside
      rw [symbols] at none
      split_ifs at none with keyword
      exact ⟨contains_iff_mem.mp keyword, occurs⟩
    · have lies := inVocab other
      have word : keywords.contains atom = false := by
        rw [← Bool.not_eq_true, contains_iff_mem]
        exact not_keyword_of_bVocab known lies
      rw [word, if_neg Bool.false_ne_true] at symbols
      rw [strictAtoms, Set.mem_ofPred_eq, symbols]
      refine ⟨cons_ne_nil _ _, fun s symbol => ?_⟩
      rw [mem_singleton.mp symbol]
      exact lies
  · cases side

theorem partial_of_second {form : IForm} {clause : Set (Text × Bool)}
    (means : ∀ ν, form.eval classes ν)
    (holds : ∀ ν ∈ SideModels classes ext proof .b, SomeHolds clause Set.univ ν)
    (covers : ∀ l ∈ clause, l.1 ∈ rightAtoms classes ext proof ext') :
    PartialInterpolant (SideModels classes ext proof .a) (SideModels classes ext proof .b)
      (strictAtoms classes ext')ᶜ (rightAtoms classes ext proof ext') clause
      { ν | form.eval classes ν } := by
  have all : { ν | form.eval classes ν } = Set.univ := Set.eq_univ_of_forall means
  rw [all]
  refine .second (fun ν models => ?_) covers
  obtain ⟨l, mem, -, same⟩ := holds ν models
  exact ⟨l, mem, same⟩

theorem good_node (known : Partitioned classes ext ext' proof)
    (refutation : Refutation classes ext proof) (free : NoKeywordPivot classes ext proof)
    {done : Nat → Option IForm} {root id : Nat} {rule : Text} {premises : List Nat}
    {form : IForm} (isRoot : proof.root = some root) (below : Below proof root id)
    (step : proof.getNode id = some (.inference rule premises conclusion))
    (good : ∀ i v, done i = some v → Good classes ext proof ext' i v)
    (computed : ext'.resolutionInterpolant classes proof done id rule premises = .ok form) :
    Good classes ext proof ext' id form := by
  obtain ⟨p1, p2, n1, n2, pivot, locality, i1, i2, rfl, found1, found2, unique, side, done1, done2,
    combined⟩ := resolutionInterpolant_cases computed
  obtain ⟨_, _, m1, m2, pair, found1', found2', atom, sign, here, there, resolvent⟩ :=
    refutation.resolution rule _ conclusion (mem_of_getElem? step)
  cases pair
  obtain rfl := Option.some.inj (found1.symm.trans found1')
  obtain rfl := Option.some.inj (found2.symm.trans found2')
  obtain ⟨rfl, lies, isAtom⟩ := pivot_eq here there unique
  obtain ⟨onFirst, onSecond⟩ := classifyPivot_spec known isAtom side
  have good1 := good p1 i1 done1
  have good2 := good p2 i2 done2
  have rests1 : ∀ {color}, RestsOn ext proof color p1 → RestsOn ext proof color id :=
    .premise step mem_cons_self
  have rests2 : ∀ {color}, RestsOn ext proof color p2 → RestsOn ext proof color id :=
    .premise step (mem_cons_of_mem _ mem_cons_self)
  have either : ∀ {text}, text ∈ form.texts → text ∈ i1.texts ∨ text ∈ i2.texts := by
    intro text mem
    have terms : ∃ term ∈ [i1, i2], text ∈ term.texts := by
      rw [combined] at mem
      split_ifs at mem
      · exact IForm.texts_mkOr mem
      · exact IForm.texts_mkAnd mem
    simpa using terms
  -- The locality of the pivot says which of the two combinations this is.
  have combine : ∀ {right : Set Text}, (locality = .aLocal → pivot ∉ right) →
      PartialInterpolant (SideModels classes ext proof .a) (SideModels classes ext proof .b)
        (strictAtoms classes ext')ᶜ right (literals classes n1.conclusion)
        { ν | i1.eval classes ν } →
      PartialInterpolant (SideModels classes ext proof .a) (SideModels classes ext proof .b)
        (strictAtoms classes ext')ᶜ right (literals classes n2.conclusion)
        { ν | i2.eval classes ν } →
      PartialInterpolant (SideModels classes ext proof .a) (SideModels classes ext proof .b)
        (strictAtoms classes ext')ᶜ right (literals classes conclusion)
        { ν | form.eval classes ν } := by
    intro right apart one two
    rw [resolvent]
    by_cases first : locality = .aLocal
    · have means : { ν | form.eval classes ν } =
          { ν | i1.eval classes ν } ∪ { ν | i2.eval classes ν } := by
        ext ν
        rw [combined, if_pos first, Set.mem_ofPred_eq, IForm.eval_mkOr]
        simp
      rw [means]
      exact one.resolve_left two (apart first)
    · have means : { ν | form.eval classes ν } =
          { ν | i1.eval classes ν } ∩ { ν | i2.eval classes ν } := by
        ext ν
        rw [combined, if_neg first, Set.mem_ofPred_eq, IForm.eval_mkAnd]
        simp
      rw [means]
      exact one.resolve_right two fun outside => outside (onSecond first)
  have first : ¬RestsOn ext proof .b id →
      PartialInterpolant (SideModels classes ext proof .a) (SideModels classes ext proof .b)
        (strictAtoms classes ext')ᶜ (strictAtoms classes ext') (literals classes conclusion)
        { ν | form.eval classes ν } := fun none =>
    combine (fun first => (onFirst first).1) (good1.first (fun rests => none (rests1 rests)) n1 found1)
      (good2.first (fun rests => none (rests2 rests)) n2 found2)
  have second : ¬RestsOn ext proof .a id → (∀ ν, form.eval classes ν) ∧
      (∀ ν ∈ SideModels classes ext proof .b, SomeHolds (literals classes conclusion) Set.univ ν) ∧
      ∀ l ∈ literals classes conclusion, l.1 ∈ rightAtoms classes ext proof ext' := by
    intro none
    obtain ⟨always1, holds1⟩ := good1.second fun rests => none (rests1 rests)
    obtain ⟨always2, holds2⟩ := good2.second fun rests => none (rests2 rests)
    refine ⟨fun ν => ?_, fun ν models => ?_, fun l mem => ?_⟩
    · rw [combined]
      split_ifs
      · exact (IForm.eval_mkOr _).mpr ⟨i1, mem_cons_self, always1 ν⟩
      · rw [IForm.eval_mkAnd]
        simpa using ⟨always1 ν, always2 ν⟩
    · rw [resolvent]
      exact someHolds_resolve ((holds1 n1 found1).1 ν models) ((holds2 n2 found2).1 ν models)
    · rw [resolvent] at mem
      exact mem.elim (fun left => (holds1 n1 found1).2 l left.1)
        fun right => (holds2 n2 found2).2 l right.1
  refine ⟨fun step' found => ?_, fun none step' found => ?_, fun none => ?_,
    fun text mem s symbol => ?_⟩
  · obtain rfl := Option.some.inj (step.symm.trans found)
    by_cases collides : locality = .aLocal ∧ pivot ∈ rightAtoms classes ext proof ext'
    · -- Such a pivot is a keyword of the second side, and the step rests on one side only.
      obtain ⟨keyword, clause, sideB, occurs⟩ := (onFirst collides.1).2 collides.2
      by_cases restsB : RestsOn ext proof .b id
      · have restsA : ¬RestsOn ext proof .a id := fun restsA =>
          free root id rule p1 p2 conclusion n1 n2 isRoot below step found1 found2 restsA restsB pivot
            lies keyword clause sideB occurs
        obtain ⟨always, holds, covers⟩ := second restsA
        exact partial_of_second always holds covers
      · exact (first restsB).mono (fun _ outside => outside) fun _ => .inl
    · exact combine (fun first right => collides ⟨first, right⟩) (good1.partially n1 found1)
        (good2.partially n2 found2)
  · obtain rfl := Option.some.inj (step.symm.trans found)
    exact first none
  · obtain ⟨always, holds, covers⟩ := second none
    refine ⟨always, fun step' found => ?_⟩
    obtain rfl := Option.some.inj (step.symm.trans found)
    exact ⟨holds, covers⟩
  · exact (either mem).elim (fun one => good1.symbols text one s symbol)
      fun two => good2.symbols text two s symbol

end

theorem literals_empty (empty : isEmptyClauseConclusion classes conclusion) :
    literals classes conclusion = ∅ := by
  have trimmed : isEmptyClauseConclusion classes (trim classes conclusion) := by
    rw [isEmptyClauseConclusion, (trim_trimmed conclusion).trim_eq]
    exact empty
  have none : parseClauseLiterals classes conclusion = [] := by
    rw [parseClauseLiterals, if_pos trimmed]
  ext l
  rw [literals, none]
  simp

/--
An extracted interpolant lies between the sides, over the symbols of both.

The extractor may have been used before.
-/
theorem InterpolantExtractor.extract_interpolates (refutation : Refutation classes ext proof)
    (free : NoKeywordPivot classes ext proof) {fuel : Nat} {itp : Interpolant}
    {ext' : InterpolantExtractor}
    (extracted : ext.extract classes fuel proof = some (.ok itp, ext')) :
    Interpolates classes ext proof itp ext' := by
  unfold InterpolantExtractor.extract at extracted
  split at extracted
  · cases extracted
  rename_i root isRoot
  split at extracted
  · cases extracted
  rename_i node found
  split at extracted
  · cases extracted
  rename_i notEmpty
  have empty : isEmptyClauseConclusion classes node.conclusion := by simpa using notEmpty
  have known := precompute_partitioned classes ext proof refutation.sides
  dsimp only at extracted
  split at extracted
  · cases extracted
  · cases extracted
  rename_i colors colored
  split at extracted
  · cases extracted
  split at extracted
  · cases extracted
  · cases extracted
  rename_i partials walked
  split at extracted
  · cases extracted
  rename_i form atRoot
  cases extracted
  -- The vocabularies do not change after the axioms were seen.
  have good : Good classes ext proof (ext.precomputeAxiomPartition classes proof) root form := by
    refine walk_good (Good classes ext proof _) ?_ ?_ fuel
      (entered root) (fun _ _ none => by cases none) walked root form atRoot
    · intro id conclusion form step computed
      unfold InterpolantExtractor.interpolantVisitor at computed
      dsimp only at computed
      split at computed
      · cases computed
      rename_i color atNode
      have direct := walk_colors ⟨known.aVocab, known.bVocab, known.shared, known.direct⟩
        refutation.sides colored step atNode
      rcases refutation.sides conclusion (mem_of_getElem? step) with first | second
      · obtain rfl := Option.some.inj (direct.symm.trans first)
        exact good_axiom_a known step first computed
      · obtain rfl := Option.some.inj (direct.symm.trans second)
        cases computed
        exact good_axiom_b known step second
    · intro done id rule premises conclusion form below step good computed
      exact good_node known refutation free isRoot below step good computed
  have between := good.partially node found
  rw [literals_empty empty] at between
  obtain ⟨reach, refute⟩ := between.of_empty
  refine ⟨root, form, isRoot, atRoot, rfl, reach, fun ν models holds => refute ν holds models,
    fun s symbol => ?_⟩
  obtain ⟨text, inForm, inText⟩ := (IForm.mem_extractSymbols_render form).mp symbol
  obtain ⟨inA, inB⟩ := (known.shared s).mp (good.symbols text inForm s inText)
  exact ⟨(known.aVocab s).mp inA, (known.bVocab s).mp inB⟩

def CharClasses.ascii : CharClasses where
  isAlphanumeric := Char.isAlphanum
  isNumeric := Char.isDigit
  isWhitespace := Char.isWhitespace
  alphanumeric_letter := all_eq_true.mp rfl
  not_alphanumeric := by
    have none : "() ".toList.all (!Char.isAlphanum ·) = true := rfl
    exact fun c member => by simpa using all_eq_true.mp none c member
  whitespace_space := rfl
  not_whitespace := by
    have none : "()not".toList.all (!Char.isWhitespace ·) = true := rfl
    exact fun c member => by simpa using all_eq_true.mp none c member

/-- An atom on the first side and its negation on the second one. -/
def unitExtractor (atom : Text) : InterpolantExtractor where
  partition := { aPremises := [0], bPremises := [1] }
  premiseId conclusion :=
    if conclusion = atom then some 0 else if conclusion = notText atom then some 1 else none
  colors _ := none
  partialInterpolants _ := none
  directAxiomColors _ := none
  aVocab := []
  bVocab := []
  shared := []

def unitProof (atom : Text) : Proof where
  nodes := [.ax atom, .ax (notText atom), .inference "resolution".toList [0, 1] "false".toList]
  roots := [2]

/-- The extraction gives an interpolant that is a certain formula. -/
def unitGives (atom : Text) (form : IForm) : Bool :=
  match (unitExtractor atom).extract .ascii 9 (unitProof atom) with
  | some (.ok itp, ext') => itp.formula == form.render && (ext'.partialInterpolants 2).any form.eq
  | _ => false

theorem unitGives_spec (atom : Text) (form : IForm) (gives : unitGives atom form = true) :
    ∃ itp ext', (unitExtractor atom).extract .ascii 9 (unitProof atom) = some (.ok itp, ext') ∧
      itp.formula = form.render ∧ ext'.partialInterpolants 2 = some form := by
  rw [unitGives] at gives
  split at gives
  · rename_i itp ext' extracted
    obtain ⟨formula, found⟩ := Bool.and_eq_true_iff.mp gives
    obtain ⟨form', found, same⟩ := (Option.any_eq_true _ _).mp found
    exact ⟨itp, ext', extracted, eq_of_beq formula, form.eq_of_eq same ▸ found⟩
  · cases gives

theorem unit_sides {atom : Text} (apart : notText atom ≠ atom) :
    (unitExtractor atom).directColor atom = some .a ∧
      (unitExtractor atom).directColor (notText atom) = some .b := by
  constructor
  · simp [unitExtractor, InterpolantExtractor.directColor]
  · simp [unitExtractor, InterpolantExtractor.directColor, apart]

theorem unit_refutation {atom : Text} (symbols : List Text)
    (pos : parseClauseLiterals .ascii atom = [⟨atom, true, symbols⟩])
    (negative : parseClauseLiterals .ascii (notText atom) = [⟨atom, false, symbols⟩]) :
    Refutation .ascii (unitExtractor atom) (unitProof atom) := by
  have apart : notText atom ≠ atom := by
    intro same
    rw [same, pos] at negative
    cases negative
  obtain ⟨first, second⟩ := unit_sides apart
  constructor
  · intro conclusion mem
    simp only [unitProof, mem_cons, not_mem_nil, or_false, reduceCtorEq, ProofStep.ax.injEq] at mem
    rcases mem with rfl | rfl
    · exact .inl first
    · exact .inr second
  · intro rule premises conclusion mem
    simp only [unitProof, mem_cons, not_mem_nil, or_false, reduceCtorEq, false_or,
      ProofStep.inference.injEq] at mem
    obtain ⟨rfl, rfl, rfl⟩ := mem
    have one : literals .ascii atom = {(atom, true)} := by
      ext l
      simp only [literals, pos, mem_singleton, exists_eq_left, Set.mem_ofPred_eq,
        Set.mem_singleton_iff, eq_comm]
    have two : literals .ascii (notText atom) = {(atom, false)} := by
      ext l
      simp only [literals, negative, mem_singleton, exists_eq_left, Set.mem_ofPred_eq,
        Set.mem_singleton_iff, eq_comm]
    refine ⟨0, 1, .ax atom, .ax (notText atom), rfl, rfl, rfl, atom, true, ?_, ?_, ?_⟩
    · exact one ▸ rfl
    · exact two ▸ rfl
    · rw [literals_empty (by decide +kernel), ProofStep.conclusion, ProofStep.conclusion, one, two]
      simp [binaryResolvent]

/-- An atom that is no keyword is itself the interpolant. -/
theorem unitProof_interpolates : ∃ itp ext',
    (unitExtractor ['p']).extract .ascii 9 (unitProof ['p']) = some (.ok itp, ext') ∧
      itp.formula = ['p'] ∧
      Interpolates .ascii (unitExtractor ['p']) (unitProof ['p']) itp ext' := by
  obtain ⟨itp, ext', extracted, formula, -⟩ := unitGives_spec ['p'] (.lit ['p']) (by decide +kernel)
  have refutation : Refutation .ascii (unitExtractor ['p']) (unitProof ['p']) :=
    unit_refutation [['p']] (by decide +kernel) (by decide +kernel)
  refine ⟨itp, ext', extracted, formula,
    InterpolantExtractor.extract_interpolates refutation ?_ extracted⟩
  -- Only the last node is a step, and it resolves on the atom.
  intro root id rule p1 p2 conclusion n1 n2 _ _ step found1 found2 _ _ atom inside keyword
  have two : id = 2 := by
    match id, step with
    | 2, _ => rfl
  subst two
  cases step
  cases found1
  cases found2
  have only : complementary .ascii ['p'] (notText ['p']) = [['p']] := by decide +kernel
  have inside : atom ∈ complementary .ascii ['p'] (notText ['p']) := inside
  rw [only, mem_singleton] at inside
  subst inside
  exact absurd keyword (by decide)

/--
A keyword is not seen on the second side.

The interpolant of it and its negation is truth, which does not contradict the negation.
-/
theorem keywordProof_not_interpolates :
    Refutation .ascii (unitExtractor "iff".toList) (unitProof "iff".toList) ∧
      ∃ itp ext', (unitExtractor "iff".toList).extract .ascii 9 (unitProof "iff".toList) =
        some (.ok itp, ext') ∧
      ¬Interpolates .ascii (unitExtractor "iff".toList) (unitProof "iff".toList) itp ext' := by
  have positive : parseClauseLiterals .ascii "iff".toList = [⟨"iff".toList, true, []⟩] := by
    decide +kernel
  have negative : parseClauseLiterals .ascii (notText "iff".toList) =
      [⟨"iff".toList, false, []⟩] := by decide +kernel
  obtain ⟨itp, ext', extracted, -, found⟩ :=
    unitGives_spec "iff".toList .true_ (by decide +kernel)
  refine ⟨unit_refutation [] positive negative, itp, ext', extracted, ?_⟩
  rintro ⟨root, form, isRoot, atRoot, -, -, refute, -⟩
  cases isRoot
  obtain rfl := Option.some.inj (atRoot.symm.trans found)
  -- The second side holds where the keyword is false.
  refine refute (fun _ => false) ?_ trivial
  rintro conclusion ⟨member, side⟩
  simp only [unitProof, mem_cons, not_mem_nil, or_false, reduceCtorEq, ProofStep.ax.injEq] at member
  rcases member with rfl | rfl
  · rw [(unit_sides (by decide)).1] at side
    cases side
  · rw [ClauseHolds, negative]
    exact ⟨_, mem_singleton_self _, rfl⟩

end Nixie.Craig
