import Nixie.Proof.ClauseText

/-! McMillan's interpolation system over a resolution refutation. -/

namespace Nixie.Craig

open Function

/-- An interpolant formula; literals are kept as their text. -/
inductive IForm where
  | true_
  | false_
  | lit (text : Text)
  | and (terms : List IForm)
  | or (terms : List IForm)

namespace IForm

mutual

def eq : IForm → IForm → Bool
  | .true_, .true_ => true
  | .false_, .false_ => true
  | .lit x, .lit y => x == y
  | .and xs, .and ys => eqAll xs ys
  | .or xs, .or ys => eqAll xs ys
  | _, _ => false

def eqAll : List IForm → List IForm → Bool
  | [], [] => true
  | x :: xs, y :: ys => eq x y && eqAll xs ys
  | _, _ => false

end

def push (flat : List IForm) (term : IForm) : List IForm :=
  if flat.any (eq · term) then flat else flat ++ [term]

/-- What a term does to the list of terms that it is added to. -/
inductive Role where
  | skip
  | stop
  | flatten (inner : List IForm)
  | keep

/-- A conjunction skips what is true, and is false with what is false. -/
def andRole : IForm → Role
  | .true_ => .skip
  | .false_ => .stop
  | .and inner => .flatten inner
  | _ => .keep

/-- A disjunction skips what is false, and is true with what is true. -/
def orRole : IForm → Role
  | .false_ => .skip
  | .true_ => .stop
  | .or inner => .flatten inner
  | _ => .keep

def collect (role : IForm → Role) : List IForm → List IForm → Option (List IForm)
  | flat, [] => some flat
  | flat, term :: rest =>
    match role term with
    | .skip => collect role flat rest
    | .stop => none
    | .flatten inner => collect role (flat ++ inner) rest
    | .keep => collect role (push flat term) rest

def mkAnd (terms : List IForm) : IForm :=
  match collect andRole [] terms with
  | none => .false_
  | some [] => .true_
  | some [term] => term
  | some flat => .and flat

def mkOr (terms : List IForm) : IForm :=
  match collect orRole [] terms with
  | none => .true_
  | some [] => .false_
  | some [term] => term
  | some flat => .or flat

mutual

def render : IForm → Text
  | .true_ => "true".toList
  | .false_ => "false".toList
  | .lit text => text
  | .and terms => '(' :: ("and".toList ++ renderAll terms)
  | .or terms => '(' :: ("or".toList ++ renderAll terms)

/-- The texts of terms, each after a blank, and the closing parenthesis. -/
def renderAll : List IForm → Text
  | [] => [')']
  | term :: rest => ' ' :: (render term ++ renderAll rest)

end

end IForm

variable (classes : CharClasses)

def ClauseLiteral.toIForm (lit : ClauseLiteral) : IForm :=
  if lit.positive then .lit lit.atom else .lit (notText lit.atom)

/-- An interpolant: its text and the symbols of it. -/
structure Interpolant where
  formula : Text
  symbols : List Text

def Interpolant.new (formula : Text) : Interpolant :=
  { formula, symbols := extractSymbols classes formula }

inductive ProofStep where
  | ax (conclusion : Text)
  | inference (rule : Text) (premises : List Nat) (conclusion : Text)

def ProofStep.conclusion : ProofStep → Text
  | .ax conclusion => conclusion
  | .inference _ _ conclusion => conclusion

/-- A proof: its steps, which are named by their positions, and the roots. -/
structure Proof where
  nodes : List ProofStep
  roots : List Nat

def Proof.getNode (proof : Proof) (id : Nat) : Option ProofStep := proof.nodes[id]?

def Proof.root (proof : Proof) : Option Nat := proof.roots.getLast?

/-- The color of a node: the premises that it depends on. -/
inductive Color where
  | a
  | b
  | ab
  deriving DecidableEq

/-- The sides of the premises. -/
structure Partition where
  aPremises : List Nat
  bPremises : List Nat

inductive ExtractError where
  | noRoot
  | rootNotFound
  | notARefutation (conclusion : Text)
  | nodeNotFound (id : Nat)
  | cyclic (id : Nat)
  | noColor (id : Nat)
  | mixedAxiom (id : Nat) (conclusion : Text)
  | unsupportedRule (rule : Text) (id : Nat)
  | premiseCount (id : Nat) (count : Nat)
  | premiseNotFound (premise id : Nat)
  | noPivot (id : Nat) (first second : Text)
  | notPropositional (atom : Text)
  | missingInterpolant (premise : Nat)
  | noInterpolant
  deriving DecidableEq

/-- An extractor: the premises and their sides, and what the last extraction computed. -/
structure InterpolantExtractor where
  partition : Partition
  premiseId : Text → Option Nat
  colors : Nat → Option Color
  partialInterpolants : Nat → Option IForm
  directAxiomColors : Nat → Option Color
  aVocab : List Text
  bVocab : List Text
  shared : List Text

/-- The color that the partition gives to an axiom. -/
def InterpolantExtractor.directColor (ext : InterpolantExtractor) (conclusion : Text) :
    Option Color :=
  match ext.premiseId conclusion with
  | none => none
  | some premise =>
    match ext.partition.aPremises.contains premise, ext.partition.bPremises.contains premise with
    | true, false => some .a
    | false, true => some .b
    | true, true => some .ab
    | false, false => none

def clauseSymbols (conclusion : Text) : List Text :=
  (parseClauseLiterals classes conclusion).flatMap (·.symbols)

/-- One node of the partition: its color, and its symbols for the sides of the color. -/
def InterpolantExtractor.addAxiom (ext : InterpolantExtractor) (id : Nat) (step : ProofStep) :
    InterpolantExtractor :=
  match step with
  | .inference .. => ext
  | .ax conclusion =>
    match ext.directColor conclusion with
    | none => ext
    | some color =>
      let symbols := clauseSymbols classes conclusion
      { ext with
        directAxiomColors := update ext.directAxiomColors id (some color)
        aVocab := if color = .b then ext.aVocab else ext.aVocab ++ symbols
        bVocab := if color = .a then ext.bVocab else ext.bVocab ++ symbols }

def InterpolantExtractor.addAxioms (ext : InterpolantExtractor) :
    Nat → List ProofStep → InterpolantExtractor
  | _, [] => ext
  | id, step :: rest => (ext.addAxiom classes id step).addAxioms (id + 1) rest

/-- The colors of the axioms, the vocabulary of each side and what the sides share. -/
def InterpolantExtractor.precomputeAxiomPartition (ext : InterpolantExtractor) (proof : Proof) :
    InterpolantExtractor :=
  let ext := { ext with directAxiomColors := fun _ => none, aVocab := [], bVocab := [] }
  let ext := ext.addAxioms classes 0 proof.nodes
  { ext with shared := ext.aVocab.filter ext.bVocab.contains }

/-- A work item of the walk: a node to visit, or one whose premises are done. -/
inductive WalkFrame where
  | enter (id : Nat)
  | exit (id : Nat)

/-- What a walk computes at the axioms, and at inferences from what it has for the premises. -/
structure Visitor (β : Type) where
  leaf : Nat → Text → Except ExtractError β
  node : (Nat → Option β) → Nat → Text → List Nat → Except ExtractError β

/--
A walk over the proof that visits premises before conclusions.

Values are memoized, and a node that is met again in progress is its own premise.
Nothing is returned if the steps that are allowed do not suffice.
-/
def walk {β : Type} (visitor : Visitor β) (proof : Proof) :
    Nat → List WalkFrame → List Nat → (Nat → Option β) →
      Option (Except ExtractError (Nat → Option β))
  | _, [], _, done => some (.ok done)
  | 0, _ :: _, _, _ => none
  | fuel + 1, .enter id :: stack, inProgress, done =>
    if (done id).isSome then walk visitor proof fuel stack inProgress done
    else match proof.getNode id with
      | none => some (.error (.nodeNotFound id))
      | some (.ax conclusion) =>
        match visitor.leaf id conclusion with
        | .error e => some (.error e)
        | .ok value => walk visitor proof fuel stack inProgress (update done id value)
      | some (.inference _ premises _) =>
        if id ∈ inProgress then some (.error (.cyclic id))
        else walk visitor proof fuel (premises.map .enter ++ .exit id :: stack)
          (id :: inProgress) done
  | fuel + 1, .exit id :: stack, inProgress, done =>
    match proof.getNode id with
    | none => some (.error (.nodeNotFound id))
    | some (.ax _) => walk visitor proof fuel stack (inProgress.erase id) done
    | some (.inference rule premises _) =>
      match visitor.node done id rule premises with
      | .error e => some (.error e)
      | .ok value =>
        walk visitor proof fuel stack (inProgress.erase id) (update done id value)

/-- The color of an axiom, by the vocabulary that it touches where the partition has none. -/
def InterpolantExtractor.colorAxiom (ext : InterpolantExtractor) (id : Nat) (conclusion : Text) :
    Color :=
  match ext.directAxiomColors id with
  | some color => color
  | none =>
    let symbols := clauseSymbols classes conclusion
    match symbols.any ext.aVocab.contains, symbols.any ext.bVocab.contains with
    | true, false => .a
    | false, true => .b
    | true, true => .ab
    | false, false => .a

/-- The color of an inference with premises of the given colors. -/
def combineColors (colors : List Color) : Color :=
  match colors.any (· ≠ .b), colors.any (· ≠ .a) with
  | true, true => .ab
  | false, true => .b
  | _, _ => .a

def premiseValues {β : Type} (done : Nat → Option β) (missing : Nat → ExtractError) :
    List Nat → Except ExtractError (List β)
  | [] => .ok []
  | premise :: rest =>
    match done premise with
    | none => .error (missing premise)
    | some value =>
      match premiseValues done missing rest with
      | .error e => .error e
      | .ok values => .ok (value :: values)

def InterpolantExtractor.colorVisitor (ext : InterpolantExtractor) : Visitor Color where
  leaf id conclusion := .ok (ext.colorAxiom classes id conclusion)
  node colors _ _ premises :=
    match premiseValues colors .nodeNotFound premises with
    | .error e => .error e
    | .ok values => .ok (combineColors values)

inductive Locality where
  | aLocal
  | bLocal
  | global
  deriving DecidableEq

/-- The side of a pivot, which must be a bare identifier. -/
def InterpolantExtractor.classifyPivot (ext : InterpolantExtractor) (pivot : Text) :
    Except ExtractError Locality :=
  let atom := trim classes pivot
  if !atom.isEmpty && atom.all (isWord classes) && !atom.all classes.isNumeric then
    if ext.shared.contains atom then .ok .global
    else if ext.bVocab.contains atom then .ok .bLocal
    else .ok .aLocal
  else .error (.notPropositional atom)

def InterpolantExtractor.axiomInterpolant (ext : InterpolantExtractor) (id : Nat) (color : Color)
    (conclusion : Text) : Except ExtractError IForm :=
  match color with
  | .a =>
    let sharedLits := ((parseClauseLiterals classes conclusion).filter fun lit =>
      !lit.symbols.isEmpty && lit.symbols.all ext.shared.contains).map ClauseLiteral.toIForm
    .ok (if sharedLits.isEmpty then .false_ else .mkOr sharedLits)
  | .b => .ok .true_
  | .ab => .error (.mixedAxiom id conclusion)

/-- Combine the partial interpolants of the premises of a resolution step. -/
def InterpolantExtractor.resolutionInterpolant (ext : InterpolantExtractor) (proof : Proof)
    (done : Nat → Option IForm) (id : Nat) (rule : Text) (premises : List Nat) :
    Except ExtractError IForm :=
  if !isResolutionRule rule then .error (.unsupportedRule rule id)
  else match premises with
    | [p1, p2] =>
      match proof.getNode p1 with
      | none => .error (.premiseNotFound p1 id)
      | some n1 =>
        match proof.getNode p2 with
        | none => .error (.premiseNotFound p2 id)
        | some n2 =>
          match findPivot classes n1.conclusion n2.conclusion with
          | none => .error (.noPivot id n1.conclusion n2.conclusion)
          | some pivot =>
            match ext.classifyPivot classes pivot with
            | .error e => .error e
            | .ok locality =>
              match done p1 with
              | none => .error (.missingInterpolant p1)
              | some i1 =>
                match done p2 with
                | none => .error (.missingInterpolant p2)
                | some i2 =>
                  .ok (match locality with
                    | .aLocal => .mkOr [i1, i2]
                    | .bLocal | .global => .mkAnd [i1, i2])
    | _ => .error (.premiseCount id premises.length)

/-- What the walk that builds the partial interpolants computes. -/
def InterpolantExtractor.interpolantVisitor (ext : InterpolantExtractor) (proof : Proof) :
    Visitor IForm where
  leaf id conclusion :=
    match ext.colors id with
    | none => .error (.noColor id)
    | some color => ext.axiomInterpolant classes id color conclusion
  node done id rule premises := ext.resolutionInterpolant classes proof done id rule premises

/--
Extract an interpolant; what an earlier extraction computed is discarded.

What a walk has when it fails is left out, since the next extraction discards it.
-/
def InterpolantExtractor.extract (ext : InterpolantExtractor) (fuel : Nat) (proof : Proof) :
    Option (Except ExtractError Interpolant × InterpolantExtractor) :=
  match proof.root with
  | none => some (.error .noRoot, ext)
  | some root =>
    match proof.getNode root with
    | none => some (.error .rootNotFound, ext)
    | some node =>
      if !isEmptyClauseConclusion classes node.conclusion then
        some (.error (.notARefutation node.conclusion), ext)
      else
        let ext := ext.precomputeAxiomPartition classes proof
        let ext := { ext with colors := fun _ => none, partialInterpolants := fun _ => none }
        match walk (ext.colorVisitor classes) proof fuel [.enter root] [] fun _ => none with
        | none => none
        | some (.error e) => some (.error e, ext)
        | some (.ok colors) =>
          let ext := { ext with colors }
          if (colors root).isNone then some (.error (.nodeNotFound root), ext) else
          match walk (ext.interpolantVisitor classes proof) proof fuel [.enter root] []
            fun _ => none with
          | none => none
          | some (.error e) => some (.error e, ext)
          | some (.ok partialInterpolants) =>
            let ext := { ext with partialInterpolants }
            match partialInterpolants root with
            | none => some (.error .noInterpolant, ext)
            | some form => some (.ok (.new classes form.render), ext)

end Nixie.Craig
