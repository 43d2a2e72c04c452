import Nixie.Data.Chain
import Nixie.Ematching.CodeTree

/-! Where the instructions of a compiled pattern stand, and how they are linked. -/

namespace Nixie.Ast.Ematching

open List

def links : Links Instruction InstructionKind where
  label := Instruction.kind
  next := Instruction.next
  setNext next instr := { instr with next := some next }
  label_setNext _ _ := rfl
  next_setNext _ _ := rfl

def kindAt (code : List Instruction) (idx : Nat) : Option InstructionKind :=
  code[idx]?.map Instruction.kind

/-- Code that was appended to; below an index nothing changed, and above it only links. -/
structure Grows (n : Nat) (code code' : List Instruction) : Prop where
  length_le : code.length ≤ code'.length
  same : ∀ x < n, code'[x]? = code[x]?
  kinds : ∀ x < code.length, kindAt code' x = kindAt code x

namespace Grows

variable {m n : Nat} {code code' code'' : List Instruction}

theorem refl (n : Nat) (code : List Instruction) : Grows n code code :=
  ⟨Nat.le_refl _, fun _ _ => rfl, fun _ _ => rfl⟩

theorem trans (first : Grows n code code') (second : Grows n code' code'') :
    Grows n code code'' where
  length_le := Nat.le_trans first.length_le second.length_le
  same x below := (second.same x below).trans (first.same x below)
  kinds x lies :=
    (second.kinds x (Nat.lt_of_lt_of_le lies first.length_le)).trans (first.kinds x lies)

theorem mono (grows : Grows n code code') (le : m ≤ n) : Grows m code code' :=
  ⟨grows.length_le, fun x below => grows.same x (Nat.lt_of_lt_of_le below le), grows.kinds⟩

theorem append (code more : List Instruction) : Grows code.length code (code ++ more) where
  length_le := by simp
  same x below := getElem?_append_left below
  kinds x lies := by rw [kindAt, kindAt, getElem?_append_left lies]

theorem link {i : Nat} (j : Nat) (code : List Instruction) (le : n ≤ i) :
    Grows n code (links.link i j code) where
  length_le := by simp [Links.link]
  same x below := links.link_other code (by omega)
  kinds x lies := by
    -- The link is set in place, and the kind of its instruction stays.
    by_cases here : x = i
    · subst here
      rw [kindAt, kindAt, links.link_same (getElem?_eq_getElem lies), getElem?_eq_getElem lies]
      rfl
    · rw [kindAt, kindAt, links.link_other code here]

theorem linkPath {path : List Nat} (above : ∀ x ∈ path, n ≤ x) (code : List Instruction) :
    Grows n code (links.linkPath path code) := by
  induction path generalizing code with
  | nil => exact refl n code
  | cons i rest ih =>
    cases rest with
    | nil => exact refl n code
    | cons j rest =>
      have first : Grows n code (links.link i j code) := link j code (above i mem_cons_self)
      exact first.trans (ih (fun x mem => above x (mem_cons_of_mem i mem)) _)

end Grows

variable {code code' : List Instruction} {kinds : List InstructionKind} {i childIdx prevIdx : Nat}

section

variable (remaining : Nat → Remaining) (varMap : VarMap)

/-- The instruction that stands for the head of a term. -/
def headKind : Term → InstructionKind
  | .var name sort => match varMap name with
    | some varIdx => .bind varIdx sort
    | none => .matchAny
  | .node (.apply func _) args => .checkFunction func args.length
  | t => .compare (TermKindDiscriminant.fromTerm remaining t)

/-- The instructions for arguments, of which only the heads stay on the chain. -/
def argKinds (childIdx : Nat) : List Term → List InstructionKind
  | [] => []
  | arg :: rest =>
    [.descendChild childIdx, headKind remaining varMap arg, .ascend] ++
      argKinds (childIdx + 1) rest

def operands : Term → List Term
  | .node (.apply _ _) args => args
  | .node .eq [lhs, rhs] | .node .lt [lhs, rhs] | .node .le [lhs, rhs]
  | .node .gt [lhs, rhs] | .node .ge [lhs, rhs] => [lhs, rhs]
  | .node .add args | .node .mul args | .node .and args | .node .or args => args
  | _ => []

/-- The check of the number of arguments, for operators that take any number of them. -/
def arityCheck : Term → List InstructionKind
  | .node .add args | .node .mul args | .node .and args | .node .or args =>
    [.check (.hasArity args.length)]
  | _ => []

/-- The instructions that follow the head of a term. -/
def bodyKinds (t : Term) : List InstructionKind :=
  arityCheck t ++ argKinds remaining varMap 0 (operands t)

/-- Compiling appends code that begins with the given instruction. -/
def Appends (compiled : Compiled) (head : InstructionKind) : Prop :=
  ∀ code i code', compiled code = .ok (i, code') →
    i = code.length ∧ Grows code.length code code' ∧ kindAt code' i = some head

end

theorem kindAt_append_cons (code : List Instruction) (instr : Instruction)
    (more : List Instruction) : kindAt (code ++ instr :: more) code.length = some instr.kind := by
  simp [kindAt]

theorem length_lt_of_kindAt {kind : InstructionKind}
    (found : kindAt code i = some kind) : i < code.length := by
  obtain ⟨instr, at_, -⟩ := Option.map_eq_some_iff.mp found
  exact (List.getElem?_eq_some_iff.mp at_).1

theorem Grows.kindAt_eq {n i : Nat} {code code' : List Instruction} {kind : InstructionKind}
    (grows : Grows n code code') (found : kindAt code i = some kind) :
    kindAt code' i = some kind :=
  (grows.kinds i (length_lt_of_kindAt found)).trans found

theorem bind_ok {α β : Type} {value : Except String α} {next : α → Except String β} {result : β}
    (done : value.bind next = .ok result) : ∃ a, value = .ok a ∧ next a = .ok result := by
  cases value with
  | error message => exact absurd done (fun same => nomatch same)
  | ok a => exact ⟨a, rfl, done⟩

theorem compileArg_eq {arg : Compiled} {head : InstructionKind} (appends : Appends arg head)
    {ascendIdx : Nat} (done : compileArg childIdx prevIdx arg code = .ok (ascendIdx, code')) :
    ∃ base, code' = links.linkPath [prevIdx, code.length, code.length + 1, ascendIdx] base ∧
      Grows code.length code base ∧ kindAt base code.length = some (.descendChild childIdx) ∧
      kindAt base (code.length + 1) = some head ∧ base[ascendIdx]? = some ⟨.ascend, none, none⟩ ∧
      code.length + 1 < ascendIdx := by
  unfold compileArg at done
  obtain ⟨⟨childInstr, mid⟩, compiled, done⟩ := bind_ok done
  obtain ⟨rfl, grows, first⟩ := appends _ _ _ compiled
  simp only [addInstruction, length_append, length_singleton] at done grows first
  obtain ⟨rfl, rfl⟩ := Prod.mk.inj (Except.ok.inj done)
  have lies := length_lt_of_kindAt first
  have before : Grows code.length code mid :=
    (Grows.append code [⟨.descendChild childIdx, none, none⟩]).trans (grows.mono (by omega))
  refine ⟨mid ++ [⟨.ascend, none, none⟩], rfl, ?_, ?_, ?_, ?_, lies⟩
  · exact before.trans ((Grows.append mid _).mono before.length_le)
  · exact (Grows.append mid _).kindAt_eq
      (grows.kindAt_eq (kindAt_append_cons code ⟨.descendChild childIdx, none, none⟩ []))
  · exact (Grows.append mid _).kindAt_eq first
  · simp

theorem compileArg_grows {arg : Compiled} {head : InstructionKind} (appends : Appends arg head)
    {n ascendIdx : Nat} (done : compileArg childIdx prevIdx arg code = .ok (ascendIdx, code'))
    (lePrev : n ≤ prevIdx) (le : n ≤ code.length) : Grows n code code' ∧ n ≤ ascendIdx := by
  obtain ⟨base, rfl, grows, -, -, -, less⟩ := compileArg_eq appends done
  refine ⟨(grows.mono le).trans (Grows.linkPath ?_ base), by omega⟩
  intro x mem
  simp only [mem_cons, not_mem_nil, or_false] at mem
  omega

theorem compileArg_chain {arg : Compiled} {head : InstructionKind} (appends : Appends arg head)
    {ascendIdx : Nat} (done : compileArg childIdx prevIdx arg code = .ok (ascendIdx, code'))
    (chain : links.Chain code i kinds prevIdx) :
    links.Chain code' i (kinds ++ [.descendChild childIdx, head, .ascend]) ascendIdx := by
  obtain ⟨base, rfl, grows, descend, first, ascend, less⟩ := compileArg_eq appends done
  have lies := chain.lt_length
  refine chain.join (fun x below => ?_) fun cell found => ?_
  · -- All cells that are linked are from the end of the chain on.
    have outside : x ∉ [prevIdx, code.length, code.length + 1, ascendIdx] := by
      simp only [mem_cons, not_mem_nil, or_false]
      omega
    rw [links.linkPath_other _ base outside, grows.same x (by omega)]
  · have previous : kindAt base prevIdx = some cell.kind := by
      rw [grows.kinds prevIdx lies, kindAt, found]
      rfl
    refine links.chain_linkPath ?_ ?_ rfl ?_
    · simp only [pairwise_cons, mem_cons, not_mem_nil, or_false]
      refine ⟨?_, ?_, ?_, fun _ never => never.elim, List.Pairwise.nil⟩ <;> intro x mem <;> omega
    · change [kindAt base prevIdx, kindAt base code.length, kindAt base (code.length + 1),
        kindAt base ascendIdx] = _
      rw [previous, descend, first, kindAt, ascend]
      rfl
    · rw [ascend]
      rfl

theorem compileBinaryOp_eq {op : TermKindDiscriminant} {lhs rhs : Compiled}
    {left right : InstructionKind} (leftAppends : Appends lhs left) (rightAppends : Appends rhs right)
    (done : compileBinaryOp op lhs rhs code = .ok (i, code')) :
    ∃ base mid last, i = code.length ∧
      code' = links.linkPath [i, i + 1, i + 2, mid, mid + 1, mid + 2, last] base ∧
      Grows code.length code base ∧ i + 2 < mid ∧ mid + 2 < last ∧
      kindAt base i = some (.compare op) ∧ kindAt base (i + 1) = some (.descendChild 0) ∧
      kindAt base (i + 2) = some left ∧ kindAt base mid = some .ascend ∧
      kindAt base (mid + 1) = some (.descendChild 1) ∧ kindAt base (mid + 2) = some right ∧
      base[last]? = some ⟨.ascend, none, none⟩ := by
  unfold compileBinaryOp at done
  obtain ⟨⟨leftInstr, leftCode⟩, leftDone, done⟩ := bind_ok done
  obtain ⟨⟨rightInstr, rightCode⟩, rightDone, done⟩ := bind_ok done
  obtain ⟨rfl, leftGrows, leftFirst⟩ := leftAppends _ _ _ leftDone
  obtain ⟨rfl, rightGrows, rightFirst⟩ := rightAppends _ _ _ rightDone
  simp only [addInstruction, length_append, append_assoc, cons_append,
    nil_append, length_cons, length_nil, Nat.reduceAdd] at done leftGrows leftFirst rightGrows rightFirst
  obtain ⟨rfl, rfl⟩ := Prod.mk.inj (Except.ok.inj done)
  have leftInside := length_lt_of_kindAt leftFirst
  have rightInside := length_lt_of_kindAt rightFirst
  have ended : Grows rightCode.length rightCode (rightCode ++ [⟨.ascend, none, none⟩]) :=
    Grows.append rightCode _
  -- What stands before an operand is compiled stands there at the end.
  have late {x : Nat} {kind : InstructionKind}
      (found : kindAt (leftCode ++ [⟨.ascend, none, none⟩, ⟨.descendChild 1, none, none⟩]) x =
        some kind) : kindAt (rightCode ++ [⟨.ascend, none, none⟩]) x = some kind :=
    ended.kindAt_eq (rightGrows.kindAt_eq found)
  have early {x : Nat} {kind : InstructionKind} (found : kindAt leftCode x = some kind) :
      kindAt (rightCode ++ [⟨.ascend, none, none⟩]) x = some kind :=
    late ((Grows.append leftCode _).kindAt_eq found)
  have grows : Grows code.length code (rightCode ++ [⟨.ascend, none, none⟩]) :=
    (((Grows.append code _).trans (leftGrows.mono (by omega))).trans
      ((Grows.append leftCode _).mono (by omega))).trans
      ((rightGrows.mono (by omega)).trans (ended.mono (by omega)))
  refine ⟨_, leftCode.length, rightCode.length, rfl, rfl, grows, leftInside, rightInside,
    early (leftGrows.kindAt_eq (kindAt_append_cons code _ _)),
    early (leftGrows.kindAt_eq ?_), early leftFirst, late (kindAt_append_cons leftCode _ _),
    late ?_, ended.kindAt_eq rightFirst, by simp⟩
  · simp [kindAt]
  · simp [kindAt]

theorem compileBinaryOp_chain {op : TermKindDiscriminant} {lhs rhs : Compiled}
    {left right : InstructionKind} (leftAppends : Appends lhs left) (rightAppends : Appends rhs right)
    (done : compileBinaryOp op lhs rhs code = .ok (i, code')) :
    ∃ last, links.Chain code' i [.compare op, .descendChild 0, left, .ascend,
      .descendChild 1, right, .ascend] last := by
  obtain ⟨base, mid, last, -, rfl, -, less, less', compare, descend, first, ascend, descend',
    second, ascend'⟩ := compileBinaryOp_eq leftAppends rightAppends done
  refine ⟨last, links.chain_linkPath ?_ ?_ rfl ?_⟩
  · simp only [pairwise_cons, mem_cons, not_mem_nil, or_false]
    refine ⟨?_, ?_, ?_, ?_, ?_, ?_, fun _ never => never.elim, List.Pairwise.nil⟩ <;>
      intro x mem <;> omega
  · change [kindAt base i, kindAt base (i + 1), kindAt base (i + 2), kindAt base mid,
      kindAt base (mid + 1), kindAt base (mid + 2), kindAt base last] = _
    rw [compare, descend, first, ascend, descend', second, kindAt, ascend']
    rfl
  · rw [ascend']
    rfl

theorem compileBinaryOp_appends {op : TermKindDiscriminant} {lhs rhs : Compiled}
    {left right : InstructionKind} (leftAppends : Appends lhs left)
    (rightAppends : Appends rhs right) :
    Appends (compileBinaryOp op lhs rhs) (.compare op) := by
  intro code i code' done
  obtain ⟨base, mid, last, rfl, rfl, grows, less, less', compare, -⟩ :=
    compileBinaryOp_eq leftAppends rightAppends done
  have linked : Grows code.length base (links.linkPath [code.length, code.length + 1,
      code.length + 2, mid, mid + 1, mid + 2, last] base) := by
    refine Grows.linkPath (fun x mem => ?_) base
    simp only [mem_cons, not_mem_nil, or_false] at mem
    omega
  exact ⟨rfl, grows.trans linked, linked.kindAt_eq compare⟩

section

variable (remaining : Nat → Remaining) (varMap : VarMap)

/-- How a term is compiled: as an application, as an operator, or to a single instruction. -/
inductive Shape : Term → Prop
  | apply (func : Name) (sort : SortKind) (args : List Term) : Shape (.node (.apply func sort) args)
  | binary {kind : Kind} {lhs rhs : Term} {op : TermKindDiscriminant}
    (compiles : ∀ depth code, compileTerm remaining varMap depth (.node kind [lhs, rhs]) code =
      (checkDepth depth).bind fun _ => compileBinaryOp op
        (compileTerm remaining varMap (depth + 1) lhs)
        (compileTerm remaining varMap (depth + 1) rhs) code)
    (head : headKind remaining varMap (.node kind [lhs, rhs]) = .compare op)
    (body : bodyKinds remaining varMap (.node kind [lhs, rhs]) =
      argKinds remaining varMap 0 [lhs, rhs]) : Shape (.node kind [lhs, rhs])
  | nary {kind : Kind} {args : List Term} {op : TermKindDiscriminant}
    (compiles : ∀ depth code, compileTerm remaining varMap depth (.node kind args) code =
      (checkDepth depth).bind fun _ => compileNaryOp op args.length
        (compileArgs remaining varMap (depth + 1) 0 args) code)
    (head : headKind remaining varMap (.node kind args) = .compare op)
    (body : bodyKinds remaining varMap (.node kind args) =
      .check (.hasArity args.length) :: argKinds remaining varMap 0 args) :
    Shape (.node kind args)
  | plain {t : Term} {kind : InstructionKind}
    (compiles : ∀ depth code, compileTerm remaining varMap depth t code =
      (checkDepth depth).bind fun _ => .ok (addInstruction code kind))
    (head : headKind remaining varMap t = kind)
    (body : bodyKinds remaining varMap t = []) : Shape t

theorem shape (t : Term) : Shape remaining varMap t := by
  cases t with
  | var name sort =>
    refine .plain (fun depth code => ?_) rfl rfl
    rw [compileTerm, headKind]
    cases varMap name <;> rfl
  | bind binder scopes args =>
    exact .plain (fun _ _ => by rw [compileTerm]; rfl) rfl rfl
  | node kind args =>
    -- The comparisons are operators only with two operands.
    cases kind with
    | apply func sort => exact .apply func sort args
    | add | mul | and | or => exact .nary (fun _ _ => by rw [compileTerm]; rfl) rfl rfl
    | eq | lt | le | gt | ge =>
      rcases args with _ | ⟨lhs, _ | ⟨rhs, _ | ⟨arg, rest⟩⟩⟩
      · exact .plain (fun _ _ => by rw [compileTerm.eq_def]; rfl) rfl rfl
      · exact .plain (fun _ _ => by rw [compileTerm.eq_def]; rfl) rfl rfl
      · exact .binary (fun _ _ => by rw [compileTerm]; rfl) rfl rfl
      · exact .plain (fun _ _ => by rw [compileTerm.eq_def]; rfl) rfl rfl
    | _ => exact .plain (fun _ _ => by rw [compileTerm.eq_def]; rfl) rfl rfl

variable {remaining varMap}

theorem compileArgs_grows {depth : Nat} {args : List Term}
    (each : ∀ arg ∈ args, Appends (compileTerm remaining varMap depth arg)
      (headKind remaining varMap arg)) {n last : Nat}
    (done : compileArgs remaining varMap depth childIdx args prevIdx code = .ok (last, code'))
    (lePrev : n ≤ prevIdx) (le : n ≤ code.length) : Grows n code code' := by
  induction args generalizing childIdx prevIdx code with
  | nil =>
    rw [compileArgs] at done
    obtain ⟨-, rfl⟩ := Prod.mk.inj (Except.ok.inj done)
    exact Grows.refl n code
  | cons arg rest ih =>
    rw [compileArgs] at done
    obtain ⟨⟨ascendIdx, mid⟩, first, done⟩ := bind_ok done
    obtain ⟨grows, below⟩ := compileArg_grows (each arg mem_cons_self) first lePrev le
    exact grows.trans (ih (fun other mem => each other (mem_cons_of_mem arg mem)) done
      below (Nat.le_trans le grows.length_le))

theorem compileArgs_chain {depth : Nat} {args : List Term}
    (each : ∀ arg ∈ args, Appends (compileTerm remaining varMap depth arg)
      (headKind remaining varMap arg)) {last : Nat}
    (done : compileArgs remaining varMap depth childIdx args prevIdx code = .ok (last, code'))
    (chain : links.Chain code i kinds prevIdx) :
    links.Chain code' i (kinds ++ argKinds remaining varMap childIdx args) last := by
  induction args generalizing childIdx prevIdx code kinds with
  | nil =>
    rw [compileArgs] at done
    obtain ⟨rfl, rfl⟩ := Prod.mk.inj (Except.ok.inj done)
    rw [argKinds, append_nil]
    exact chain
  | cons arg rest ih =>
    rw [compileArgs] at done
    obtain ⟨⟨ascendIdx, mid⟩, first, done⟩ := bind_ok done
    have longer := compileArg_chain (each arg mem_cons_self) first chain
    rw [argKinds, ← append_assoc]
    exact ih (fun other mem => each other (mem_cons_of_mem arg mem)) done longer

theorem chain_single (kind : InstructionKind) (code : List Instruction) :
    links.Chain (code ++ [⟨kind, none, none⟩]) code.length [kind] code.length := by
  have found : (code ++ [(⟨kind, none, none⟩ : Instruction)])[code.length]? =
      some ⟨kind, none, none⟩ := by simp
  exact .last found rfl

theorem naryHead_chain (op : TermKindDiscriminant) (arity : Nat) (code : List Instruction) :
    links.Chain (links.link code.length (code.length + 1)
        (code ++ [⟨.compare op, none, none⟩, ⟨.check (.hasArity arity), none, none⟩]))
      code.length [.compare op, .check (.hasArity arity)] (code.length + 1) := by
  change links.Chain (links.linkPath [code.length, code.length + 1] _) _ _ _
  refine links.chain_linkPath ?_ ?_ rfl ?_ <;> simp [links]

theorem appends_single (depth : Nat) (kind : InstructionKind) :
    Appends (fun code => (checkDepth depth).bind fun _ => .ok (addInstruction code kind)) kind := by
  intro code i code' done
  obtain ⟨-, -, done⟩ := bind_ok done
  obtain ⟨rfl, rfl⟩ := Prod.mk.inj (Except.ok.inj done)
  exact ⟨rfl, Grows.append code _, kindAt_append_cons code ⟨kind, none, none⟩ []⟩

theorem Shape.appends {t : Term} (shaped : Shape remaining varMap t)
    (each : ∀ kind args, t = .node kind args → ∀ arg ∈ args, ∀ depth,
      Appends (compileTerm remaining varMap depth arg) (headKind remaining varMap arg))
    (depth : Nat) : Appends (compileTerm remaining varMap depth t) (headKind remaining varMap t) := by
  cases shaped with
  | apply func sort args =>
    intro code i code' done
    rw [compileTerm] at done
    obtain ⟨-, -, done⟩ := bind_ok done
    obtain ⟨⟨last, mid⟩, compiled, done⟩ := bind_ok done
    obtain ⟨rfl, rfl⟩ := Prod.mk.inj (Except.ok.inj done)
    have grows := compileArgs_grows (fun arg mem => each _ _ rfl arg mem (depth + 1)) compiled
      (Nat.le_refl code.length) (by simp)
    have appended := Grows.append code [⟨.checkFunction func args.length, none, none⟩]
    exact ⟨rfl, appended.trans grows, grows.kindAt_eq
      (kindAt_append_cons code ⟨.checkFunction func args.length, none, none⟩ [])⟩
  | @binary kind lhs rhs op compiles head =>
    intro code i code' done
    rw [compiles] at done
    obtain ⟨-, -, done⟩ := bind_ok done
    rw [head]
    exact compileBinaryOp_appends (each _ _ rfl lhs (by simp) (depth + 1))
      (each _ _ rfl rhs (by simp) (depth + 1)) code i code' done
  | @nary kind args op compiles head =>
    intro code i code' done
    rw [compiles] at done
    obtain ⟨-, -, done⟩ := bind_ok done
    obtain ⟨⟨last, mid⟩, compiled, done⟩ := bind_ok done
    obtain ⟨rfl, rfl⟩ := Prod.mk.inj (Except.ok.inj done)
    simp only [append_assoc, cons_append, nil_append, length_append, length_singleton] at compiled
    have appended := Grows.append code
      [⟨.compare op, none, none⟩, ⟨.check (.hasArity args.length), none, none⟩]
    -- The head is linked to the check of the arity, which stands before the arguments.
    have linked := Grows.link (code.length + 1)
      (code ++ [⟨.compare op, none, none⟩, ⟨.check (.hasArity args.length), none, none⟩])
      (Nat.le_refl code.length)
    have grows := linked.trans (compileArgs_grows
      (fun arg mem => each _ _ rfl arg mem (depth + 1)) compiled (Nat.le_succ _)
      (Nat.le_trans appended.length_le linked.length_le))
    rw [head]
    exact ⟨rfl, appended.trans grows, grows.kindAt_eq (kindAt_append_cons code _ _)⟩
  | plain compiles head =>
    rw [funext (compiles depth), head]
    exact appends_single depth _

theorem compileTerm_appends (t : Term) (depth : Nat) :
    Appends (compileTerm remaining varMap depth t) (headKind remaining varMap t) := by
  induction t using Term.induct generalizing depth with
  | var name sort => exact (shape _ _ _).appends (fun _ _ same => absurd same (by simp)) depth
  | bind binder scopes args => exact (shape _ _ _).appends (fun _ _ same => absurd same (by simp)) depth
  | node kind args ih =>
    refine (shape _ _ _).appends (fun kind' args' same arg mem => ?_) depth
    cases same
    exact ih arg mem

theorem compileTerm_chain {t : Term} {depth : Nat}
    (done : compileTerm remaining varMap depth t code = .ok (i, code')) :
    ∃ last, links.Chain code' i
      (headKind remaining varMap t :: bodyKinds remaining varMap t) last := by
  have each (arg : Term) (depth : Nat) : Appends (compileTerm remaining varMap depth arg)
      (headKind remaining varMap arg) := compileTerm_appends arg depth
  cases shape remaining varMap t with
  | apply func sort args =>
    rw [compileTerm] at done
    obtain ⟨-, -, done⟩ := bind_ok done
    obtain ⟨⟨last, mid⟩, compiled, done⟩ := bind_ok done
    obtain ⟨rfl, rfl⟩ := Prod.mk.inj (Except.ok.inj done)
    exact ⟨last, compileArgs_chain (fun arg _ => each arg (depth + 1)) compiled
      (chain_single (.checkFunction func args.length) code)⟩
  | binary compiles head body =>
    rw [compiles] at done
    obtain ⟨-, -, done⟩ := bind_ok done
    rw [head, body]
    exact compileBinaryOp_chain (each _ _) (each _ _) done
  | @nary kind args op compiles head body =>
    rw [compiles] at done
    obtain ⟨-, -, done⟩ := bind_ok done
    obtain ⟨⟨last, mid⟩, compiled, done⟩ := bind_ok done
    obtain ⟨rfl, rfl⟩ := Prod.mk.inj (Except.ok.inj done)
    simp only [append_assoc, cons_append, nil_append, length_append, length_singleton] at compiled
    rw [head, body]
    exact ⟨last, compileArgs_chain (fun arg _ => each arg (depth + 1)) compiled
      (naryHead_chain op args.length code)⟩
  | @plain t kind compiles head body =>
    rw [compiles] at done
    obtain ⟨-, -, done⟩ := bind_ok done
    obtain ⟨rfl, rfl⟩ := Prod.mk.inj (Except.ok.inj done)
    rw [head, body]
    exact ⟨code.length, chain_single kind code⟩

end

theorem chainEnd_eq {k : Nat}
    (chain : links.Chain code i kinds k) (steps : Nat) (enough : kinds.length ≤ steps + 1) :
    chainEnd code steps i = k := by
  induction chain generalizing steps with
  | last found ends =>
    cases steps with
    | zero => rfl
    | succ steps => rw [chainEnd, found, Option.bind_some, show Instruction.next _ = none from ends]
  | link found linked less rest ih =>
    have nonempty := rest.length_pos
    rw [length_cons] at enough
    cases steps with
    | zero => omega
    | succ steps =>
      rw [chainEnd, found, Option.bind_some, show Instruction.next _ = some _ from linked]
      exact ih steps (by omega)

theorem chainEnd_link {root last : Nat}
    (chain : links.Chain code root kinds last) {instr : Instruction} (ends : instr.next = none) :
    links.Chain (link (chainEnd (code ++ [instr]) (code ++ [instr]).length root) code.length
      (code ++ [instr])) root (kinds ++ [instr.kind]) code.length := by
  have lies := chain.lt_length
  have longer := chain.length_le
  have extended : (code ++ [instr]).length = code.length + 1 := length_append
  have kept : links.Chain (code ++ [instr]) root kinds last :=
    chain.stays fun x le => getElem?_append_left (by omega)
  have atEnd : (code ++ [instr])[code.length]? = some instr := by simp
  rw [chainEnd_eq kept (code ++ [instr]).length (by omega)]
  change links.Chain (links.link last code.length (code ++ [instr])) root _ _
  refine kept.join (fun x below => links.link_other _ (Nat.ne_of_lt below)) fun cell found => ?_
  have linked : (links.link last code.length (code ++ [instr]))[last]? =
      some (links.setNext code.length cell) := links.link_same found
  rw [← links.label_setNext code.length cell]
  exact .link linked rfl lies
    (.last ((links.link_other _ (Nat.ne_of_gt lies)).trans atEnd) ends)

/-- The instructions of a compiled pattern, along the chain from its root. -/
def patternKinds (remaining : Nat → Remaining) (pattern : Pattern) : List InstructionKind :=
  let varMap := (buildVarMap pattern.vars).1
  headKind remaining varMap pattern.root :: bodyKinds remaining varMap pattern.root ++ [.yield 0]

theorem compile_chain {remaining : Nat → Remaining} {pattern : Pattern} {tree : CodeTree}
    (done : compile remaining pattern = .ok tree) :
    tree.numVars = (buildVarMap pattern.vars).2 ∧
      ∃ last, links.Chain tree.instructions tree.root (patternKinds remaining pattern) last := by
  unfold compile at done
  obtain ⟨⟨root, code⟩, compiled, done⟩ := bind_ok done
  obtain rfl := Except.ok.inj done
  obtain ⟨last, chain⟩ := compileTerm_chain compiled
  have ends : (⟨.yield 0, none, none⟩ : Instruction).next = none := rfl
  exact ⟨rfl, code.length, chainEnd_link chain ends⟩

def IsCompare : InstructionKind → Prop
  | .compare _ => True
  | _ => False

def IsCheck : InstructionKind → Prop
  | .check _ => True
  | _ => False

/-- Two comparisons do not follow each other. -/
def Apart (first second : InstructionKind) : Prop := ¬(IsCompare first ∧ IsCompare second)

theorem headKind_not_check (remaining : Nat → Remaining) (varMap : VarMap) (t : Term) :
    ¬IsCheck (headKind remaining varMap t) := by
  cases t with
  | var name sort =>
    rw [headKind]
    cases varMap name <;> exact id
  | node kind args => cases kind <;> exact id
  | bind => exact id

theorem argKinds_no_check (remaining : Nat → Remaining) (varMap : VarMap) (args : List Term)
    (childIdx : Nat) : ∀ kind ∈ argKinds remaining varMap childIdx args, ¬IsCheck kind := by
  induction args generalizing childIdx with
  | nil => exact fun _ mem => absurd mem not_mem_nil
  | cons arg rest ih =>
    intro kind mem
    rcases mem_append.mp mem with mem | mem
    · simp only [mem_cons, not_mem_nil, or_false] at mem
      rcases mem with rfl | rfl | rfl
      · exact id
      · exact headKind_not_check remaining varMap arg
      · exact id
    · exact ih (childIdx + 1) kind mem

theorem argKinds_apart (remaining : Nat → Remaining) (varMap : VarMap) (args : List Term)
    (childIdx : Nat) (before : InstructionKind) :
    (before :: (argKinds remaining varMap childIdx args ++ [.yield 0])).IsChain Apart := by
  induction args generalizing childIdx before with
  | nil => exact .cons_cons And.right (.singleton _)
  | cons arg rest ih =>
    exact .cons_cons And.right (.cons_cons And.left (.cons_cons And.right (ih (childIdx + 1) .ascend)))

theorem patternKinds_apart (remaining : Nat → Remaining) (pattern : Pattern) :
    (patternKinds remaining pattern).IsChain Apart := by
  rw [patternKinds]
  generalize pattern.root = t
  cases shape remaining (buildVarMap pattern.vars).1 t with
  | apply func sort args => exact argKinds_apart remaining _ args 0 _
  | binary _ _ body =>
    rw [body]
    exact argKinds_apart remaining _ _ 0 _
  | nary _ _ body =>
    rw [body]
    exact .cons_cons And.right (argKinds_apart remaining _ _ 0 _)
  | plain _ _ body =>
    rw [body]
    exact .cons_cons And.right (.singleton _)

theorem patternKinds_checks (remaining : Nat → Remaining) (pattern : Pattern) :
    ∃ first second rest, patternKinds remaining pattern = first :: second :: rest ∧
      ¬IsCheck first ∧ ∀ kind ∈ rest, ¬IsCheck kind := by
  have yield_ (args : List Term) : ∀ kind ∈ argKinds remaining
      (buildVarMap pattern.vars).1 0 args ++ [.yield 0], ¬IsCheck kind := by
    intro kind mem
    rcases mem_append.mp mem with mem | mem
    · exact argKinds_no_check remaining _ args 0 kind mem
    · rw [mem_singleton.mp mem]
      exact id
  have moves (args : List Term) : ∃ second rest, argKinds remaining (buildVarMap pattern.vars).1 0
      args ++ [.yield 0] = second :: rest ∧ ∀ kind ∈ rest, ¬IsCheck kind := by
    have none := yield_ args
    generalize argKinds remaining (buildVarMap pattern.vars).1 0 args = kinds at none ⊢
    cases kinds with
    | nil => exact ⟨_, _, rfl, fun kind mem => none kind (mem_cons_of_mem _ mem)⟩
    | cons kind kinds => exact ⟨_, _, rfl, fun kind mem => none kind (mem_cons_of_mem _ mem)⟩
  have head := headKind_not_check remaining (buildVarMap pattern.vars).1 pattern.root
  rw [patternKinds]
  generalize pattern.root = t at head
  cases shape remaining (buildVarMap pattern.vars).1 t with
  | apply func sort args =>
    obtain ⟨second, rest, same, none⟩ := moves args
    exact ⟨_, second, rest, congrArg _ same, head, none⟩
  | @binary kind lhs rhs op _ _ body =>
    rw [body]
    obtain ⟨second, rest, same, none⟩ := moves [lhs, rhs]
    exact ⟨_, second, rest, congrArg _ same, head, none⟩
  | @nary kind args op _ _ body =>
    rw [body]
    exact ⟨_, _, _, rfl, head, yield_ args⟩
  | plain _ _ body =>
    rw [body]
    exact ⟨_, _, _, rfl, head, fun _ mem => absurd mem not_mem_nil⟩

theorem chain_kinds {k : Nat}
    (linked : links.Chain code i kinds k) (steps : Nat) (enough : kinds.length ≤ steps) :
    (chain code steps i).map (fun entry => entry.2.kind) = kinds := by
  induction linked generalizing steps with
  | last found ends =>
    cases steps with
    | zero => exact absurd enough (by simp)
    | succ steps =>
      rw [chain, found]
      simp only [show Instruction.next _ = none from ends, map_cons, map_nil]
      rfl
  | link found linked less rest ih =>
    cases steps with
    | zero => exact absurd enough (by simp)
    | succ steps =>
      rw [chain, found]
      simp only [show Instruction.next _ = some _ from linked, map_cons]
      rw [ih steps (Nat.le_of_succ_le_succ enough)]
      rfl

theorem repeatedCompares_apart (entries : List (Nat × Instruction))
    (apart : (entries.map fun entry => entry.2.kind).IsChain Apart) :
    repeatedCompares entries = [] := by
  induction entries with
  | nil => rfl
  | cons first rest ih =>
    cases rest with
    | nil => rfl
    | cons second rest =>
      obtain ⟨here, later⟩ := isChain_cons_cons.mp apart
      rw [repeatedCompares, ih later]
      split
      · rename_i same same'
        have compares : IsCompare first.2.kind := by rw [same]; trivial
        have compares' : IsCompare second.2.kind := by rw [same']; trivial
        exact absurd ⟨compares, compares'⟩ here
      · rfl

theorem repeatedChecks_none (entries : List (Nat × Instruction)) (seen : List TermProperty)
    (none : ∀ kind ∈ entries.map fun entry => entry.2.kind, ¬IsCheck kind) :
    repeatedChecks seen entries = [] := by
  induction entries with
  | nil => rfl
  | cons first rest ih =>
    rw [repeatedChecks]
    split
    · rename_i same
      have checks : IsCheck first.2.kind := by rw [same]; trivial
      exact absurd checks (none _ mem_cons_self)
    · exact ih fun kind mem => none kind (mem_cons_of_mem _ mem)

theorem repeatedChecks_once {entries : List (Nat × Instruction)} {first second : InstructionKind}
    {rest : List InstructionKind}
    (kinds : entries.map (fun entry => entry.2.kind) = first :: second :: rest)
    (head : ¬IsCheck first) (none : ∀ kind ∈ rest, ¬IsCheck kind) :
    repeatedChecks [] entries = [] := by
  obtain ⟨entry, others, rfl, rfl, more⟩ := map_eq_cons_iff.mp kinds
  obtain ⟨entry', others, rfl, rfl, rfl⟩ := map_eq_cons_iff.mp more
  rw [repeatedChecks]
  split
  · rename_i same
    have checks : IsCheck entry.2.kind := by rw [same]; trivial
    exact absurd checks head
  · rw [repeatedChecks]
    split
    · rw [if_neg not_mem_nil]
      exact repeatedChecks_none others _ none
    · exact repeatedChecks_none others _ none

theorem patchLinks_nil (code : List Instruction) : patchLinks [] code = code := by
  -- Without dropped instructions every link is forwarded to itself.
  have same (idx : Option Nat) : forward [] code idx = idx := by
    cases idx with
    | none => rfl
    | some idx => simp [forward]
  simp [patchLinks, same]

theorem optimize_compile {remaining : Nat → Remaining} {pattern : Pattern} {tree : CodeTree}
    (done : compile remaining pattern = .ok tree) : optimize tree = tree := by
  obtain ⟨-, last, linked⟩ := compile_chain done
  have longer := linked.length_le
  have lies := linked.lt_length
  have kinds := chain_kinds linked tree.instructions.length (by omega)
  have merged : mergeSequences tree = tree := by
    rw [mergeSequences]
    split
    · rfl
    · simp only [repeatedCompares_apart _ (kinds ▸ patternKinds_apart remaining pattern),
        patchLinks_nil]
  have checks : repeatedChecks []
      (chain tree.instructions tree.instructions.length tree.root) = [] := by
    obtain ⟨first, second, rest, same, head, none⟩ := patternKinds_checks remaining pattern
    exact repeatedChecks_once (kinds.trans same) head none
  simp only [optimize, merged, eliminateRedundantChecks, checks, patchLinks_nil]

end Nixie.Ast.Ematching
