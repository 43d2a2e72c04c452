import Nixie.Ast.Term

/-! Patterns compiled to linked instructions, and the machine that runs them on a term. -/

namespace Nixie.Ast.Ematching

/-- The nesting from which on a pattern is rejected. -/
def maxPatternCompileDepth : Nat := 512

inductive TermKindDiscriminant where
  | var | tru | fls | intConst | realConst | bitVecConst | stringLit
  | apply | eq | lt | le | gt | ge | add | mul | sub | div
  | and | or | not | implies | select | store | other
  deriving DecidableEq

/-- Which of the kinds with a discriminant of their own a remaining kind is. -/
inductive Remaining where
  | stringLit
  | select
  | store
  | other

def TermKindDiscriminant.fromTerm (remaining : Nat → Remaining) : Term → TermKindDiscriminant
  | .var _ _ => .var
  | .node .tru _ => .tru
  | .node .fls _ => .fls
  | .node (.intConst _) _ => .intConst
  | .node (.realConst _) _ => .realConst
  | .node (.bitVecConst _ _) _ => .bitVecConst
  | .node (.apply _ _) _ => .apply
  | .node .eq _ => .eq
  | .node .lt _ => .lt
  | .node .le _ => .le
  | .node .gt _ => .gt
  | .node .ge _ => .ge
  | .node .add _ => .add
  | .node .mul _ => .mul
  | .node .sub _ => .sub
  | .node .div _ => .div
  | .node .and _ => .and
  | .node .or _ => .or
  | .node .not _ => .not
  | .node .implies _ => .implies
  | .node (.other tag _) _ => match remaining tag with
    | .stringLit => .stringLit
    | .select => .select
    | .store => .store
    | .other => .other
  | _ => .other

inductive TermProperty where
  | hasSort (sort : SortKind)
  | isGround
  | hasArity (arity : Nat)
  | isConstant
  deriving DecidableEq

inductive InstructionKind where
  | compare (expected : TermKindDiscriminant)
  | bind (varIdx : Nat) (sort : SortKind)
  | check (property : TermProperty)
  | descendChild (childIdx : Nat)
  | ascend
  | checkFunction (funcName : Name) (arity : Nat)
  | yield (patternId : Nat)
  | choice (first second : Nat)
  | matchAny
  | halt
  deriving DecidableEq

/-- An instruction with the index of the next one, and of an alternative. -/
structure Instruction where
  kind : InstructionKind
  next : Option Nat
  alt : Option Nat
  deriving DecidableEq

/-- A compiled pattern. -/
structure CodeTree where
  root : Nat
  instructions : List Instruction
  numVars : Nat
  deriving DecidableEq

mutual

/-- The variables of a term; a binder hides those below it. -/
def patternVars : Term → List Var
  | .var name sort => [(name, sort)]
  | .node _ args => patternVarsAll args
  | .bind _ _ _ => []

def patternVarsAll : List Term → List Var
  | [] => []
  | term :: rest => patternVars term ++ patternVarsAll rest

end

/-- A pattern; its variables are collected from its root, each name once. -/
structure Pattern where
  root : Term
  vars : List Var
  distinct : (vars.map Prod.fst).Nodup
  occurs : ∀ x ∈ vars, x ∈ patternVars root

abbrev VarMap := Name → Option Nat

/-- The first variable of a name that is new takes the next index. -/
def addVariable (state : VarMap × Nat) (x : Var) : VarMap × Nat :=
  match state.1 x.1 with
  | some _ => state
  | none => (Function.update state.1 x.1 (some state.2), state.2 + 1)

/-- The indices of the variables of a pattern, and their number. -/
def buildVarMap (vars : List Var) : VarMap × Nat := vars.foldl addVariable (fun _ => none, 0)

def addInstruction (instructions : List Instruction) (kind : InstructionKind) :
    Nat × List Instruction :=
  (instructions.length, instructions ++ [⟨kind, none, none⟩])

def link (idx next : Nat) (instructions : List Instruction) : List Instruction :=
  instructions.modify idx fun instr => { instr with next := some next }

/-- Code that is appended for a term, with the index of its first instruction. -/
abbrev Compiled := List Instruction → Except String (Nat × List Instruction)

def checkDepth (depth : Nat) : Except String Unit :=
  if depth > maxPatternCompileDepth then
    .error s!"pattern nesting exceeds {maxPatternCompileDepth} levels"
  else .ok ()

def compileBinaryOp (op : TermKindDiscriminant) (lhs rhs : Compiled) : Compiled :=
  fun instructions => do
  let (compareIdx, instructions) := addInstruction instructions (.compare op)
  let (descendLeft, instructions) := addInstruction instructions (.descendChild 0)
  let (leftInstr, instructions) ← lhs instructions
  let (ascendLeft, instructions) := addInstruction instructions .ascend
  let (descendRight, instructions) := addInstruction instructions (.descendChild 1)
  let (rightInstr, instructions) ← rhs instructions
  let (ascendRight, instructions) := addInstruction instructions .ascend
  -- The links of an operand that is itself compiled to several instructions are overwritten.
  let instructions := link compareIdx descendLeft instructions
  let instructions := link descendLeft leftInstr instructions
  let instructions := link leftInstr ascendLeft instructions
  let instructions := link ascendLeft descendRight instructions
  let instructions := link descendRight rightInstr instructions
  let instructions := link rightInstr ascendRight instructions
  return (compareIdx, instructions)

/-- Compiles one argument, after the previous one or the check of the head. -/
def compileArg (childIdx prevIdx : Nat) (arg : Compiled) : Compiled := fun instructions => do
  let (descendIdx, instructions) := addInstruction instructions (.descendChild childIdx)
  let (childInstr, instructions) ← arg instructions
  let (ascendIdx, instructions) := addInstruction instructions .ascend
  let instructions := link prevIdx descendIdx instructions
  let instructions := link descendIdx childInstr instructions
  let instructions := link childInstr ascendIdx instructions
  return (ascendIdx, instructions)

def compileNaryOp (op : TermKindDiscriminant) (arity : Nat) (args : Nat → Compiled) : Compiled :=
  fun instructions => do
  let (compareIdx, instructions) := addInstruction instructions (.compare op)
  let (checkArity, instructions) := addInstruction instructions (.check (.hasArity arity))
  let instructions := link compareIdx checkArity instructions
  let (_, instructions) ← args checkArity instructions
  return (compareIdx, instructions)

mutual

def compileTerm (remaining : Nat → Remaining) (varMap : VarMap) (depth : Nat) : Term → Compiled
  | .var name sort => fun instructions => do
    checkDepth depth
    match varMap name with
    | some varIdx => return addInstruction instructions (.bind varIdx sort)
    | none => return addInstruction instructions .matchAny
  | .node (.apply func _) args => fun instructions => do
    checkDepth depth
    let (checkIdx, instructions) := addInstruction instructions (.checkFunction func args.length)
    let (_, instructions) ←
      compileArgs remaining varMap (depth + 1) 0 args checkIdx instructions
    return (checkIdx, instructions)
  | .node .eq [lhs, rhs] => fun instructions => do
    checkDepth depth
    compileBinaryOp .eq (compileTerm remaining varMap (depth + 1) lhs)
      (compileTerm remaining varMap (depth + 1) rhs) instructions
  | .node .lt [lhs, rhs] => fun instructions => do
    checkDepth depth
    compileBinaryOp .lt (compileTerm remaining varMap (depth + 1) lhs)
      (compileTerm remaining varMap (depth + 1) rhs) instructions
  | .node .le [lhs, rhs] => fun instructions => do
    checkDepth depth
    compileBinaryOp .le (compileTerm remaining varMap (depth + 1) lhs)
      (compileTerm remaining varMap (depth + 1) rhs) instructions
  | .node .gt [lhs, rhs] => fun instructions => do
    checkDepth depth
    compileBinaryOp .gt (compileTerm remaining varMap (depth + 1) lhs)
      (compileTerm remaining varMap (depth + 1) rhs) instructions
  | .node .ge [lhs, rhs] => fun instructions => do
    checkDepth depth
    compileBinaryOp .ge (compileTerm remaining varMap (depth + 1) lhs)
      (compileTerm remaining varMap (depth + 1) rhs) instructions
  | .node .add args => fun instructions => do
    checkDepth depth
    compileNaryOp .add args.length
      (compileArgs remaining varMap (depth + 1) 0 args) instructions
  | .node .mul args => fun instructions => do
    checkDepth depth
    compileNaryOp .mul args.length
      (compileArgs remaining varMap (depth + 1) 0 args) instructions
  | .node .and args => fun instructions => do
    checkDepth depth
    compileNaryOp .and args.length
      (compileArgs remaining varMap (depth + 1) 0 args) instructions
  | .node .or args => fun instructions => do
    checkDepth depth
    compileNaryOp .or args.length
      (compileArgs remaining varMap (depth + 1) 0 args) instructions
  -- Of all other terms only the kind is compared.
  | .node kind args => fun instructions => do
    checkDepth depth
    return addInstruction instructions
      (.compare (TermKindDiscriminant.fromTerm remaining (.node kind args)))
  | .bind binder scopes args => fun instructions => do
    checkDepth depth
    return addInstruction instructions
      (.compare (TermKindDiscriminant.fromTerm remaining (.bind binder scopes args)))

def compileArgs (remaining : Nat → Remaining) (varMap : VarMap) (depth childIdx : Nat) :
    List Term → Nat → Compiled
  | [] => fun prevIdx instructions => return (prevIdx, instructions)
  | arg :: rest => fun prevIdx instructions => do
    let (ascendIdx, instructions) ←
      compileArg childIdx prevIdx (compileTerm remaining varMap depth arg) instructions
    compileArgs remaining varMap depth (childIdx + 1) rest ascendIdx instructions

end

/-- The end of the chain of next instructions, which is followed for the given number of steps. -/
def chainEnd (instructions : List Instruction) : Nat → Nat → Nat
  | 0, idx => idx
  | steps + 1, idx => match instructions[idx]?.bind Instruction.next with
    | some next => chainEnd instructions steps next
    | none => idx

def compile (remaining : Nat → Remaining) (pattern : Pattern) : Except String CodeTree := do
  let (varMap, numVars) := buildVarMap pattern.vars
  let (root, instructions) ← compileTerm remaining varMap 0 pattern.root []
  let (yieldIdx, instructions) := addInstruction instructions (.yield 0)
  let tail := chainEnd instructions instructions.length root
  return ⟨root, link tail yieldIdx instructions, numVars⟩

/-- The instructions on the chain from an index, as far as the given number of steps reaches. -/
def chain (instructions : List Instruction) : Nat → Nat → List (Nat × Instruction)
  | 0, _ => []
  | steps + 1, idx => match instructions[idx]? with
    | none => []
    | some instr => (idx, instr) :: match instr.next with
      | some next => chain instructions steps next
      | none => []

/-- Links to an instruction that is dropped go to its own successor. -/
def forward (drop : List Nat) (instructions : List Instruction) (idx : Option Nat) : Option Nat :=
  match idx with
  | none => none
  | some idx => if idx ∈ drop then instructions[idx]?.bind Instruction.next else some idx

def patchLinks (drop : List Nat) (instructions : List Instruction) : List Instruction :=
  instructions.map fun instr =>
    { instr with next := forward drop instructions instr.next
                 alt := forward drop instructions instr.alt }

def repeatedCompares : List (Nat × Instruction) → List Nat
  | (_, instr) :: (idx, next) :: rest =>
    let drop := repeatedCompares ((idx, next) :: rest)
    match instr.kind, next.kind with
    | .compare expected, .compare expected' => if expected = expected' then idx :: drop else drop
    | _, _ => drop
  | _ => []

def repeatedChecks (seen : List TermProperty) : List (Nat × Instruction) → List Nat
  | [] => []
  | (idx, instr) :: rest => match instr.kind with
    | .check property =>
      if property ∈ seen then idx :: repeatedChecks seen rest
      else repeatedChecks (property :: seen) rest
    | _ => repeatedChecks seen rest

/-- Merges consecutive comparisons; a chain without a cycle is followed to its end. -/
def mergeSequences (tree : CodeTree) : CodeTree :=
  if tree.instructions.length < 2 then tree
  else
    let drop := repeatedCompares (chain tree.instructions tree.instructions.length tree.root)
    { tree with instructions := patchLinks drop tree.instructions }

def eliminateRedundantChecks (tree : CodeTree) : CodeTree :=
  let drop := repeatedChecks [] (chain tree.instructions tree.instructions.length tree.root)
  { tree with instructions := patchLinks drop tree.instructions }

/-- Optimises a tree; the first pass, which looks for unreachable instructions, changes nothing. -/
def optimize (tree : CodeTree) : CodeTree := eliminateRedundantChecks (mergeSequences tree)

/-- The argument that an instruction descends to; some kinds have none. -/
def childAt : Term → Nat → Option Term
  | .node (.apply _ _) args, idx => args[idx]?
  | .node .eq [lhs, rhs], idx | .node .lt [lhs, rhs], idx | .node .le [lhs, rhs], idx =>
    [lhs, rhs][idx]?
  | .node .add args, idx | .node .mul args, idx => args[idx]?
  | _, _ => none

def TermProperty.passes : TermProperty → Term → Bool
  | .hasSort sort, t => t.sort == sort
  | .isGround, .var _ _ => false
  | .isGround, _ => true
  | .hasArity arity, .node (.apply _ _) args => args.length == arity
  | .hasArity arity, .node .add args => args.length == arity
  | .hasArity arity, .node .mul args => args.length == arity
  | .hasArity _, _ => false
  | .isConstant, .node .tru _ => true
  | .isConstant, .node .fls _ => true
  | .isConstant, .node (.intConst _) _ => true
  | .isConstant, .node (.realConst _) _ => true
  | .isConstant, _ => false

/-- Whether a term applies a function to a number of arguments. -/
def appliesFunction (funcName : Name) (arity : Nat) : Term → Bool
  | .node (.apply func _) args => func == funcName && args.length == arity
  | _ => false

/-- The cursor, the bindings and the terms above the cursor. -/
structure Registers where
  currentTerm : Term
  bindings : List (Option Term)
  termStack : List Term

/-- Where to resume when a branch fails. -/
structure Resume where
  ip : Nat
  registers : Registers

inductive Step where
  | goto (ip : Nat) (registers : Registers)
  -- An alternative is kept for later.
  | choose (ip : Nat) (registers : Registers) (later : Resume)
  | fail
  | done (result : List Term)

def Instruction.proceed (instr : Instruction) (label : String) (registers : Registers) :
    Except String Step :=
  match instr.next with
  | some next => .ok (.goto next registers)
  | none => .error s!"{label} has no next instruction"

def Instruction.execute (remaining : Nat → Remaining) (instr : Instruction) (r : Registers) :
    Except String Step :=
  match instr.kind with
  | .compare expected =>
    if TermKindDiscriminant.fromTerm remaining r.currentTerm = expected then
      instr.proceed "Compare" r
    else .ok .fail
  | .bind varIdx sort =>
    if r.currentTerm.sort ≠ sort then .ok .fail
    else match r.bindings[varIdx]? with
      | none => .error s!"Bind refers to unknown variable index {varIdx}"
      | some (some existing) =>
        if existing ≠ r.currentTerm then .ok .fail else instr.proceed "Bind" r
      | some none =>
        instr.proceed "Bind" { r with bindings := r.bindings.set varIdx (some r.currentTerm) }
  | .check property =>
    if property.passes r.currentTerm then instr.proceed "Check" r else .ok .fail
  | .descendChild childIdx => match childAt r.currentTerm childIdx with
    | none => .ok .fail
    | some child =>
      instr.proceed "DescendChild"
        { r with currentTerm := child, termStack := r.currentTerm :: r.termStack }
  | .ascend => match instr.next with
    | none => .error "Ascend has no next instruction"
    | some next => match r.termStack with
      | [] => .error "Cannot ascend: stack empty"
      | parent :: rest => .ok (.goto next { r with currentTerm := parent, termStack := rest })
  | .checkFunction funcName arity =>
    if appliesFunction funcName arity r.currentTerm then instr.proceed "CheckFunction" r
    else .ok .fail
  -- A match needs a binding of every variable.
  | .yield _ => match r.bindings.mapM id with
    | some result => .ok (.done result)
    | none => .ok .fail
  | .choice first second => .ok (.choose first r ⟨second, r⟩)
  | .matchAny => instr.proceed "MatchAny" r
  | .halt => .ok .fail

def CodeTree.run (remaining : Nat → Remaining) (tree : CodeTree) :
    Nat → Nat → Registers → List Resume → Option (Except String (Option (List Term)))
  | 0, _, _, _ => none
  | fuel + 1, ip, registers, trail => match tree.instructions[ip]? with
    | none => some (.error s!"Invalid instruction pointer: {ip}")
    | some instr => match instr.execute remaining registers with
      | .error message => some (.error message)
      | .ok (.goto next registers) => tree.run remaining fuel next registers trail
      | .ok (.choose first registers later) =>
        tree.run remaining fuel first registers (later :: trail)
      | .ok (.done result) => some (.ok (some result))
      | .ok .fail => match trail with
        | [] => some (.ok none)
        | resume :: rest => tree.run remaining fuel resume.ip resume.registers rest

/-- Executes a tree on a term, for a number of instructions. -/
def CodeTree.execute (remaining : Nat → Remaining) (tree : CodeTree) (fuel : Nat) (t : Term) :
    Option (Except String (Option (List Term))) :=
  tree.run remaining fuel tree.root ⟨t, List.replicate tree.numVars none, []⟩ []

end Nixie.Ast.Ematching
