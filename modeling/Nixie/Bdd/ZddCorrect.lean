import Nixie.Bdd.Zdd

/-! Which families the operations of the manager return, and when these are the right ones. -/

namespace Nixie.Bdd.ZddManager

open ZddOp Option

variable {m m' : ZddManager}

/-- A node stands for a row. -/
abbrev Lists (m : ZddManager) (id : NodeId) (s : Row) : Prop := m.Denotes id s.tree

/-- All nodes stand for rows, and results are those that the rows have. -/
structure Sound (m : ZddManager) : Prop extends m.WellFormed where
  rows : ∀ {id tree}, m.Denotes id tree → ∃ s : Row, tree = s.tree ∧ s.Ordered
  results : ∀ {op left right result}, m.opCache (op, left, right) = some result →
    ∃ s t u, m.Lists left s ∧ m.Lists right t ∧ m.Lists result u ∧ op.Yields s t u

theorem lists_empty : m.Lists zddEmpty ([], false) := .ff

theorem lists_base : m.Lists zddBase ([], true) := .tt

theorem Sound.exists_lists (sound : m.Sound) {id : NodeId} (valid : m.Valid id) :
    ∃ s, m.Lists id s ∧ s.Ordered := by
  obtain ⟨tree, denotes⟩ := sound.exists_denotes valid
  obtain ⟨s, rfl, ordered⟩ := sound.rows denotes
  exact ⟨s, denotes, ordered⟩

variable {s : Row}

theorem lists_unique {id : NodeId} {t : Row} (left : m.Lists id s) (right : m.Lists id t) :
    s = t := Row.tree_injective (NodeTable.Denotes.unique left right)

theorem Sound.ordered (sound : m.Sound) {id : NodeId} (lists : m.Lists id s) : s.Ordered := by
  obtain ⟨t, same, ordered⟩ := sound.rows lists
  rwa [Row.tree_injective same]

theorem Sound.eq_empty (sound : m.Sound) {id : NodeId} (lists : m.Lists id ([], false)) :
    id = zddEmpty := sound.denotes_injective lists lists_empty

theorem Sound.eq_base (sound : m.Sound) {id : NodeId} (lists : m.Lists id ([], true)) :
    id = zddBase := sound.denotes_injective lists lists_base

theorem Sound.base_of_nil (sound : m.Sound) {id : NodeId} (lists : m.Lists id s)
    (some_ : id ≠ zddEmpty) (none : s.1 = []) : s.2 = true ∧ id = zddBase := by
  obtain ⟨vs, b⟩ := s
  obtain rfl : vs = [] := none
  cases b with
  | false => exact absurd (sound.eq_empty lists) some_
  | true => exact ⟨rfl, sound.eq_base lists⟩

theorem Sound.node (sound : m.Sound) {id : NodeId} (lists : m.Lists id s)
    (some_ : id ≠ zddEmpty) : ∃ low, m.nodes[id]? = some ⟨s.first, low, zddBase⟩ ∧
      m.Lists low s.rest ∧ (s.1 ≠ [] → low < id) ∧ low ≤ id := by
  obtain ⟨_ | ⟨v, vs⟩, b⟩ := s
  · obtain ⟨same, rfl⟩ := sound.base_of_nil lists some_ rfl
    obtain rfl : b = true := same
    exact ⟨zddBase, sound.constant (by decide), lists_base, fun absent => absurd rfl absent,
      Nat.le_refl _⟩
  · have denotes : m.Denotes id (.branch v (Row.tree (vs, b)) (.leaf true)) := lists
    cases denotes with
    | @node _ low high _ _ _ internal found left right =>
      obtain rfl : high = zddBase := sound.denotes_injective right .tt
      have less := (sound.earlier internal found).1
      exact ⟨low, found, left, fun _ => less, less.le⟩

theorem Sound.makeNode (sound : m.Sound) {low : NodeId} (lists : m.Lists low s)
    {v : VarId} (word : v ≤ u32Max) (before : ∀ w ∈ s.1, v < w) :
    (m.makeNode v low zddBase).2.Sound ∧ m.Grows (m.makeNode v low zddBase).2.toNodeTable ∧
      (m.makeNode v low zddBase).2.Lists (m.makeNode v low zddBase).1 (s.push v) := by
  have other : ¬zddBase = zddEmpty := by decide
  rw [ZddManager.makeNode, if_neg other]
  obtain ⟨wellFormed, grows, only, branch⟩ := sound.intern_spec v (sound.valid lists)
    (sound.valid lists_base)
  have denotes := branch lists lists_base
  have ordered := sound.ordered lists
  refine ⟨⟨wellFormed, fun {id tree} denotes' => ?_, fun {op left right result} stored => ?_⟩, grows,
    denotes⟩
  · rcases only id (wellFormed.valid denotes') with old | rfl
    · obtain ⟨t, lists', ordered'⟩ := sound.exists_lists old
      exact ⟨t, denotes'.unique (lists'.mono grows), ordered'⟩
    · exact ⟨s.push v, denotes'.unique denotes, List.pairwise_cons.mpr ⟨before, ordered.1⟩,
        List.forall_mem_cons.mpr ⟨word, ordered.2⟩⟩
  · obtain ⟨s, t, u, left, right, result, yields⟩ := sound.results stored
    exact ⟨s, t, u, left.mono grows, right.mono grows, result.mono grows, yields⟩

theorem makeNode_empty (v : VarId) (low : NodeId) : m.makeNode v low zddEmpty = (low, m) :=
  if_pos rfl

variable {right : NodeId}

theorem Sound.store (sound : m.Sound) {op : ZddOp} {left result : NodeId} {t u : Row}
    (listsLeft : m.Lists left s) (listsRight : m.Lists right t) (listsResult : m.Lists result u)
    (yields : op.Yields s t u) :
    (m.keep (op, left, right) result).Sound := by
  refine ⟨sound.toWellFormed, sound.rows, fun {op' left' right' result'} known => ?_⟩
  have stored : Function.update m.opCache (op, left, right) (some result) (op', left', right') =
      some result' := known
  rw [Function.update_apply] at stored
  split at stored
  · rename_i same
    obtain ⟨rfl, rfl, rfl⟩ := by simpa only [Prod.mk.injEq] using same
    obtain rfl := some.inj stored
    exact ⟨s, t, u, listsLeft, listsRight, listsResult, yields⟩
  · exact sound.results stored

theorem Sound.terminal_spec (sound : m.Sound) {op : ZddOp} {left result : NodeId} {t : Row}
    (listsLeft : m.Lists left s) (listsRight : m.Lists right t)
    (known : terminal op left right = some result) :
    ∃ u, m.Lists result u ∧ op.Yields s t u := by
  have empty {id : NodeId} {r : Row} (lists : m.Lists id r) (eq : id = zddEmpty) : r = ([], false) := by
    subst eq
    exact lists_unique lists lists_empty
  have base {id : NodeId} {r : Row} (lists : m.Lists id r) (eq : id = zddBase) : r = ([], true) := by
    subst eq
    exact lists_unique lists lists_base
  cases op with
  | union =>
    rw [terminal] at known
    split at known
    · rename_i eq
      obtain rfl := some.inj known
      obtain rfl := empty listsLeft eq
      exact ⟨t, listsRight, fun v => by simp [Keeps], by simp [keepsEmpty]⟩
    split at known
    · rename_i eq
      obtain rfl := some.inj known
      obtain rfl := empty listsRight eq
      exact ⟨s, listsLeft, fun v => by simp [Keeps], by simp [keepsEmpty]⟩
    split at known
    · rename_i eq
      subst eq
      obtain rfl := some.inj known
      obtain rfl := lists_unique listsLeft listsRight
      exact ⟨s, listsLeft, fun v => by simp [Keeps], by simp [keepsEmpty]⟩
    · cases known
  | intersection =>
    rw [terminal] at known
    split at known
    · rename_i either
      obtain rfl := some.inj known
      refine ⟨_, lists_empty, ?_⟩
      rcases either with eq | eq
      · obtain rfl := empty listsLeft eq
        exact ⟨fun v => by simp [Keeps], by simp [keepsEmpty]⟩
      · obtain rfl := empty listsRight eq
        exact ⟨fun v => by simp [Keeps], by simp [keepsEmpty]⟩
    rename_i some_
    split at known
    · rename_i eq
      subst eq
      obtain rfl := some.inj known
      obtain rfl := lists_unique listsLeft listsRight
      exact ⟨s, listsLeft, fun v => by simp [Keeps], by simp [keepsEmpty]⟩
    rename_i distinct
    split at known
    · rename_i either
      obtain rfl := some.inj known
      refine ⟨_, lists_empty, ?_⟩
      -- The constant ends without a variable, and the other family does not.
      rcases either with eq | eq
      · obtain rfl := base listsLeft eq
        refine ⟨fun v => by simp [Keeps], ?_⟩
        have other : t.1 ≠ [] := fun none =>
          distinct (eq.trans (sound.base_of_nil listsRight (fun eq => some_ (.inr eq)) none).2.symm)
        simp [keepsEmpty, eq_comm, other]
      · obtain rfl := base listsRight eq
        refine ⟨fun v => by simp [Keeps], ?_⟩
        have other : s.1 ≠ [] := fun none =>
          distinct ((sound.base_of_nil listsLeft (fun eq => some_ (.inl eq)) none).2.trans eq.symm)
        simp [keepsEmpty, other]
    · cases known
  | difference =>
    rw [terminal] at known
    split at known
    · rename_i eq
      obtain rfl := some.inj known
      obtain rfl := empty listsLeft eq
      exact ⟨_, lists_empty, fun v => by simp [Keeps], by simp [keepsEmpty]⟩
    split at known
    · rename_i eq
      obtain rfl := some.inj known
      obtain rfl := empty listsRight eq
      exact ⟨s, listsLeft, fun v => by simp [Keeps], by simp [keepsEmpty]⟩
    split at known
    · rename_i eq
      subst eq
      obtain rfl := some.inj known
      obtain rfl := lists_unique listsLeft listsRight
      refine ⟨_, lists_empty, fun v => ?_, by simp [keepsEmpty]⟩
      exact iff_of_false (List.not_mem_nil) fun keeps => keeps.2.1 keeps.1
    · cases known

theorem of_terminal_eq_none {op : ZddOp} {left : NodeId} (unknown : terminal op left right = none) :
    left ≠ zddEmpty ∧ right ≠ zddEmpty ∧ left ≠ right ∧
      (op = .intersection → left ≠ zddBase ∧ right ≠ zddBase) := by
  cases op with
  | union | difference =>
    rw [terminal] at unknown
    split at unknown
    · cases unknown
    rename_i someLeft
    split at unknown
    · cases unknown
    rename_i someRight
    split at unknown
    · cases unknown
    rename_i distinct
    exact ⟨someLeft, someRight, distinct, fun eq => (nomatch eq)⟩
  | intersection =>
    rw [terminal] at unknown
    split at unknown
    · cases unknown
    rename_i some_
    split at unknown
    · cases unknown
    rename_i distinct
    split at unknown
    · cases unknown
    rename_i inner
    exact ⟨fun eq => some_ (.inl eq), fun eq => some_ (.inr eq), distinct,
      fun _ => ⟨fun eq => inner (.inl eq), fun eq => inner (.inr eq)⟩⟩

theorem Sound.finish (sound : m.Sound) {op : ZddOp} {left low high : NodeId} {t u : Row}
    (listsLeft : m.Lists left s) (listsRight : m.Lists right t) (listsLow : m.Lists low u)
    {v : VarId} (result : high = zddEmpty ∧ op.Yields s t u ∨ high = zddBase ∧ v ≤ u32Max ∧
      (∀ w ∈ u.1, v < w) ∧ op.Yields s t (u.push v)) :
    ∃ u', ((m.makeNode v low high).2.keep (op, left, right) (m.makeNode v low high).1).Sound ∧
      m.Grows (m.makeNode v low high).2.toNodeTable ∧
      (m.makeNode v low high).2.Lists (m.makeNode v low high).1 u' ∧ op.Yields s t u' := by
  rcases result with ⟨rfl, yields⟩ | ⟨rfl, word, before, yields⟩
  · rw [makeNode_empty]
    exact ⟨u, sound.store listsLeft listsRight listsLow yields, .refl _, listsLow, yields⟩
  · obtain ⟨sound', grows, lists⟩ := sound.makeNode listsLow word before
    exact ⟨u.push v, sound'.store (listsLeft.mono grows) (listsRight.mono grows) lists yields, grows,
      lists, yields⟩

theorem applyWithin_base (op : ZddOp) {depth : Nat} (pos : 0 < depth) :
    applyWithin op depth zddBase zddBase m =
      some (if op = .difference then zddEmpty else zddBase, m) := by
  obtain ⟨depth, rfl⟩ := Nat.exists_eq_add_one_of_ne_zero pos.ne'
  cases op <;> rfl

theorem applyWithin_base_left {depth : Nat} (pos : 0 < depth)
    (some_ : right ≠ zddEmpty) (distinct : right ≠ zddBase) :
    applyWithin .intersection depth zddBase right m = some (zddEmpty, m) := by
  obtain ⟨depth, rfl⟩ := Nat.exists_eq_add_one_of_ne_zero pos.ne'
  have known : terminal .intersection zddBase right = some zddEmpty := by
    have other : ¬(zddBase = zddEmpty ∨ right = zddEmpty) :=
      fun either => either.elim (by decide) some_
    rw [terminal, if_neg other, if_neg distinct.symm, if_pos (.inl rfl)]
  rw [applyWithin, known]

theorem applyWithin_base_right {depth : Nat} (pos : 0 < depth) {left : NodeId}
    (some_ : left ≠ zddEmpty) (distinct : left ≠ zddBase) :
    applyWithin .intersection depth left zddBase m = some (zddEmpty, m) := by
  obtain ⟨depth, rfl⟩ := Nat.exists_eq_add_one_of_ne_zero pos.ne'
  have known : terminal .intersection left zddBase = some zddEmpty := by
    have other : ¬(left = zddEmpty ∨ zddBase = zddEmpty) :=
      fun either => either.elim some_ (by decide)
    rw [terminal, if_neg other, if_neg distinct, if_pos (.inr rfl)]
  rw [applyWithin, known]

/-- What a plan for the high branch leads to. -/
def Plans (op : ZddOp) (plan : NodeId ⊕ NodeId × NodeId) (high : NodeId) : Prop :=
  plan = .inl high ∨ ∃ left right, plan = .inr (left, right) ∧
    ∀ {m : ZddManager} {depth}, 0 < depth → applyWithin op depth left right m = some (high, m)

/-- What is expanded has the rest of the rows as its operands, and a constant as high branch. -/
structure Expands (m : ZddManager) (op : ZddOp) (left right : NodeId) (s t : Row)
    (parts : VarId × (NodeId × NodeId) × (NodeId ⊕ NodeId × NodeId)) (s' t' : Row)
    (high : NodeId) : Prop where
  listsLeft : m.Lists parts.2.1.1 s'
  listsRight : m.Lists parts.2.1.2 t'
  smaller : parts.2.1.1 + parts.2.1.2 < left + right
  plans : Plans op parts.2.2 high
  yields : ∀ {u}, op.Yields s' t' u → high = zddEmpty ∧ op.Yields s t u ∨
    high = zddBase ∧ parts.1 ≤ u32Max ∧ (∀ w ∈ u.1, parts.1 < w) ∧ op.Yields s t (u.push parts.1)

theorem Sound.expand_spec (sound : m.Sound) {op : ZddOp} {left : NodeId} {t : Row}
    (listsLeft : m.Lists left s) (listsRight : m.Lists right t)
    (unknown : terminal op left right = none) :
    ∃ leftNode rightNode s' t' high, m.nodes[left]? = some leftNode ∧
      m.nodes[right]? = some rightNode ∧
      Expands m op left right s t (expand op left right leftNode rightNode) s' t' high := by
  obtain ⟨someLeft, someRight, distinct, inner⟩ := of_terminal_eq_none unknown
  obtain ⟨lowLeft, foundLeft, listsLowLeft, lessLeft, leLeft⟩ := sound.node listsLeft someLeft
  obtain ⟨lowRight, foundRight, listsLowRight, lessRight, leRight⟩ :=
    sound.node listsRight someRight
  have orderedLeft := sound.ordered listsLeft
  have orderedRight := sound.ordered listsRight
  have notNilLeft (other : left ≠ zddBase) : s.1 ≠ [] :=
    fun nil => other (sound.base_of_nil listsLeft someLeft nil).2
  have notNilRight (other : right ≠ zddBase) : t.1 ≠ [] :=
    fun nil => other (sound.base_of_nil listsRight someRight nil).2
  refine ⟨⟨s.first, lowLeft, zddBase⟩, ⟨t.first, lowRight, zddBase⟩, ?_⟩
  rcases Nat.lt_trichotomy s.first t.first with less | same | more
  · -- The left row has a variable of its own.
    have some_ : s.1 ≠ [] := orderedRight.ne_nil_of_first_lt less
    have later : ∀ w ∈ t.1, s.first < w := orderedRight.not_mem_of_first less
    have smaller : lowLeft + right < left + right := Nat.add_lt_add_right (lessLeft some_) right
    have after {u : Row} (yields : op.Yields s.rest t u) : ∀ w ∈ u.1, s.first < w :=
      fun w mem => (yields.mem_or mem).elim orderedLeft.first_lt (later w)
    refine ⟨s.rest, t, if op = .intersection then zddEmpty else zddBase, foundLeft, foundRight, ?_⟩
    unfold expand
    rw [if_neg less.ne, if_pos less]
    refine ⟨listsLowLeft, listsRight, smaller, ?_, fun yields => ?_⟩
    · cases op with
      | union | difference => exact .inl rfl
      | intersection =>
        exact .inr ⟨_, _, rfl, fun pos =>
          applyWithin_base_left pos someRight (inner rfl).2⟩
    · cases op with
      | union =>
        exact .inr ⟨rfl, orderedLeft.first_le_max, after yields, union_less less some_ yields⟩
      | intersection =>
        exact .inl ⟨rfl, intersection_less orderedRight less some_ (notNilRight (inner rfl).2) yields⟩
      | difference =>
        exact .inr ⟨rfl, orderedLeft.first_le_max, after yields,
          difference_less orderedRight less some_ yields⟩
  · -- Both rows start with the same variable, and one of them really has it.
    have both : ¬(s.1 = [] ∧ t.1 = []) := fun nil =>
      distinct ((sound.base_of_nil listsLeft someLeft nil.1).2.trans
        (sound.base_of_nil listsRight someRight nil.2).2.symm)
    have smaller : lowLeft + lowRight < left + right := by
      by_cases nil : s.1 = []
      · exact Nat.add_lt_add_of_le_of_lt leLeft (lessRight fun nil' => both ⟨nil, nil'⟩)
      · exact Nat.add_lt_add_of_lt_of_le (lessLeft nil) leRight
    have after {u : Row} (yields : op.Yields s.rest t.rest u) : ∀ w ∈ u.1, s.first < w :=
      fun w mem => (yields.mem_or mem).elim orderedLeft.first_lt fun mem =>
        same ▸ orderedRight.first_lt mem
    refine ⟨s.rest, t.rest, if op = .difference then zddEmpty else zddBase, foundLeft, foundRight,
      ?_⟩
    unfold expand
    rw [if_pos same]
    refine ⟨listsLowLeft, listsLowRight, smaller, .inr ⟨_, _, rfl, applyWithin_base op⟩,
      fun yields => ?_⟩
    cases op with
    | union =>
      exact .inr ⟨rfl, orderedLeft.first_le_max, after yields, union_same same both yields⟩
    | intersection =>
      exact .inr ⟨rfl, orderedLeft.first_le_max, after yields, intersection_same orderedLeft
        orderedRight same (notNilLeft (inner rfl).1) (notNilRight (inner rfl).2) yields⟩
    | difference =>
      exact .inl ⟨rfl, difference_same orderedLeft orderedRight same
        (fun nil => (sound.base_of_nil listsRight someRight nil).1) yields⟩
  · -- The right row has a variable of its own.
    have some_ : t.1 ≠ [] := orderedLeft.ne_nil_of_first_lt more
    have later : ∀ w ∈ s.1, t.first < w := orderedLeft.not_mem_of_first more
    have smaller : left + lowRight < left + right := Nat.add_lt_add_left (lessRight some_) left
    have after {u : Row} (yields : op.Yields s t.rest u) : ∀ w ∈ u.1, t.first < w :=
      fun w mem => (yields.mem_or mem).elim (later w) orderedRight.first_lt
    refine ⟨s, t.rest, if op = .union then zddBase else zddEmpty, foundLeft, foundRight, ?_⟩
    unfold expand
    rw [if_neg more.ne', if_neg (Nat.lt_asymm more)]
    refine ⟨listsLeft, listsLowRight, smaller, ?_, fun yields => ?_⟩
    · cases op with
      | union | difference => exact .inl rfl
      | intersection =>
        exact .inr ⟨_, _, rfl, fun pos =>
          applyWithin_base_right pos someLeft (inner rfl).1⟩
    · cases op with
      | union =>
        exact .inr ⟨rfl, orderedRight.first_le_max, after yields,
          (union_less more some_ yields.symm_union).symm_union⟩
      | intersection =>
        exact .inl ⟨rfl, (intersection_less orderedLeft more some_ (notNilLeft (inner rfl).1)
          yields.symm_intersection).symm_intersection⟩
      | difference => exact .inl ⟨rfl, difference_more orderedLeft more some_ yields⟩

theorem Sound.applyWithin_spec (op : ZddOp) {depth : Nat} (sound : m.Sound) {left : NodeId}
    {t : Row} (listsLeft : m.Lists left s) (listsRight : m.Lists right t)
    (deep : left + right < depth) :
    ∃ result m' u, applyWithin op depth left right m = some (result, m') ∧ m'.Sound ∧
      m.Grows m'.toNodeTable ∧ m'.Lists result u ∧ op.Yields s t u := by
  induction depth generalizing m left right s t with
  | zero => exact absurd deep (Nat.not_lt_zero _)
  | succ depth ih =>
    rw [applyWithin]
    cases known : terminal op left right with
    | some result =>
      obtain ⟨u, lists, yields⟩ := sound.terminal_spec listsLeft listsRight known
      exact ⟨result, m, u, rfl, sound, .refl _, lists, yields⟩
    | none =>
      cases stored : m.opCache (op, left, right) with
      | some result =>
        obtain ⟨s', t', u, listsLeft', listsRight', lists, yields⟩ := sound.results stored
        obtain rfl := lists_unique listsLeft listsLeft'
        obtain rfl := lists_unique listsRight listsRight'
        exact ⟨result, m, u, rfl, sound, .refl _, lists, yields⟩
      | none =>
        obtain ⟨leftNode, rightNode, s', t', high, foundLeft, foundRight, expands⟩ :=
          sound.expand_spec listsLeft listsRight known
        simp only [foundLeft, foundRight, bind_eq_bind, bind_some]
        generalize expand op left right leftNode rightNode = parts at expands
        obtain ⟨var, ⟨lowLeft, lowRight⟩, plan⟩ := parts
        have deep' : lowLeft + lowRight < depth :=
          Nat.lt_of_lt_of_le expands.smaller (Nat.le_of_lt_succ deep)
        obtain ⟨low, m₁, u, eq, sound₁, grows₁, lists, yields⟩ :=
          ih sound expands.listsLeft expands.listsRight deep'
        obtain ⟨u', sound₂, grows₂, lists', yields'⟩ := sound₁.finish (listsLeft.mono grows₁)
          (listsRight.mono grows₁) lists (expands.yields yields)
        refine ⟨_, _, u', ?_, sound₂, grows₁.trans grows₂, lists', yields'⟩
        rcases expands.plans with rfl | ⟨highLeft, highRight, rfl, eq'⟩
        · simp only [eq, bind_some]
        · simp only [eq, eq' (Nat.zero_lt_of_lt deep'), bind_some]

end Nixie.Bdd.ZddManager
