import Mathlib.Order.Bounds.Defs
import Nixie.Bdd.ZddCorrect

/-! Families of nodes and their sizes, and when operations on families are exact. -/

namespace Nixie.Bdd

open List Option Nat

namespace Row

variable {s : Row}

theorem family_eq_iff {family : Finset (Finset VarId)}
    (small : ∀ x ∈ family, (∃ v, x = {v}) ∨ x = ∅) :
    s.family = family ↔ (∀ v, v ∈ s.1 ↔ {v} ∈ family) ∧ (s.2 = true ↔ ∅ ∈ family) := by
  constructor
  · rintro rfl
    exact ⟨fun v => singleton_mem_family.symm, empty_mem_family.symm⟩
  · intro ⟨singles, base⟩
    ext x
    rw [mem_family]
    constructor
    · rintro (⟨v, mem, rfl⟩ | ⟨empty, rfl⟩)
      · exact (singles v).mp mem
      · exact base.mp empty
    · intro mem
      rcases small x mem with ⟨v, rfl⟩ | rfl
      · exact .inl ⟨v, (singles v).mpr mem, rfl⟩
      · exact .inr ⟨base.mpr mem, rfl⟩

def size (s : Row) : Nat := s.1.length + s.2.toNat

theorem Ordered.card_family (ordered : s.Ordered) : s.family.card = s.size := by
  obtain ⟨vs, b⟩ := s
  have nodup : (vs.map fun v => ({v} : Finset VarId)).Nodup :=
    List.Nodup.map Finset.singleton_injective (ordered.1.imp fun less => ne_of_lt less)
  have singles : (vs.map fun v => ({v} : Finset VarId)).toFinset.card = vs.length := by
    rw [toFinset_card_of_nodup nodup, length_map]
  cases b with
  | false =>
    have none_ : family (vs, false) = (vs.map fun v => ({v} : Finset VarId)).toFinset :=
      Finset.union_empty _
    rw [none_, singles]
    rfl
  | true =>
    have distinct : Disjoint (vs.map fun v => ({v} : Finset VarId)).toFinset {∅} := by
      simp
    have both : family (vs, true) = (vs.map fun v => ({v} : Finset VarId)).toFinset ∪ {∅} := rfl
    rw [both, Finset.card_union_of_disjoint distinct, singles, Finset.card_singleton]
    rfl

theorem family_push (v : VarId) (s : Row) : (s.push v).family = s.family ∪ {{v}} := by
  ext x
  rw [Finset.mem_union, Finset.mem_singleton, mem_family, mem_family]
  constructor
  · rintro (⟨w, mem, eq⟩ | base)
    · rcases mem_cons.mp mem with rfl | mem
      · exact .inr eq
      · exact .inl (.inl ⟨w, mem, eq⟩)
    · exact .inl (.inr base)
  · rintro ((⟨w, mem, eq⟩ | base) | eq)
    · exact .inl ⟨w, mem_cons_of_mem v mem, eq⟩
    · exact .inr base
    · exact .inl ⟨v, mem_cons_self, eq⟩

theorem Ordered.size_lt (ordered : s.Ordered) : s.size < 2 ^ 64 := by
  have lies : s.1 ⊆ range (2 ^ 32) := fun v mem =>
    mem_range.mpr (lt_succ_of_le (ordered.2 v mem))
  have nodup : s.1.Nodup := ordered.1.imp fun less => ne_of_lt less
  have length : s.1.length ≤ 2 ^ 32 := by
    simpa only [length_range] using (nodup.subperm lies).length_le
  have base : s.2.toNat ≤ 1 := Bool.toNat_le s.2
  unfold size
  omega

theorem size_push (v : VarId) (s : Row) : (s.push v).size = s.size + 1 := by
  rw [size, size, push, length_cons]
  exact Nat.add_right_comm _ _ _

theorem Ordered.getLast?_eq_some_iff (ordered : s.Ordered) {v : VarId} :
    s.1.getLast? = some v ↔ IsGreatest {w | {w} ∈ s.family} v := by
  simp only [singleton_mem_family]
  constructor
  · intro last
    obtain ⟨before, eq⟩ := List.getLast?_eq_some_iff.mp last
    refine ⟨mem_of_getLast? last, fun w mem => ?_⟩
    have mem : w ∈ s.1 := mem
    have increasing := ordered.1
    rw [eq, pairwise_append] at increasing
    rw [eq, mem_append, mem_singleton] at mem
    rcases mem with old | rfl
    · exact (increasing.2.2 w old v (mem_singleton_self v)).le
    · exact le_rfl
  · intro ⟨mem, greatest⟩
    have mem : v ∈ s.1 := mem
    cases last : s.1.getLast? with
    | none =>
      rw [getLast?_eq_none_iff.mp last] at mem
      cases mem
    | some w =>
      obtain ⟨before, eq⟩ := List.getLast?_eq_some_iff.mp last
      have increasing := ordered.1
      rw [eq, pairwise_append] at increasing
      rw [eq, mem_append, mem_singleton] at mem
      rcases mem with old | rfl
      · -- The last variable would be greater.
        have less := increasing.2.2 v old w (mem_singleton_self w)
        exact absurd (greatest (mem_of_getLast? last)) (not_le.mpr less)
      · rfl

end Row

namespace ZddOp

def families : ZddOp → Finset (Finset VarId) → Finset (Finset VarId) → Finset (Finset VarId)
  | .union, l, r => l ∪ r
  | .intersection, l, r => l ∩ r
  | .difference, l, r => l \ r

/-- When an operation does what it is meant to do. -/
def Exact : ZddOp → Finset (Finset VarId) → Finset (Finset VarId) → Prop
  | .union, _, _ => True
  -- If both have the empty set, they have the same greatest variable or none.
  | .intersection, l, r => ∅ ∈ l → ∅ ∈ r →
    ∀ v, IsGreatest {w | {w} ∈ l} v ↔ IsGreatest {w | {w} ∈ r} v
  -- If only the left family has the largest word, the right one does not have the empty set.
  | .difference, l, r => {u32Max} ∈ l → {u32Max} ∉ r → ∅ ∉ r

theorem Yields.family_eq_iff {op : ZddOp} {t u : Row} (orderedLeft : s.Ordered)
    (orderedRight : t.Ordered) (yields : op.Yields s t u) :
    u.family = op.families s.family t.family ↔ op.Exact s.family t.family := by
  have small {r : Row} (x : Finset VarId) (mem : x ∈ r.family) : (∃ v, x = {v}) ∨ x = ∅ :=
    (Row.mem_family.mp mem).imp (fun found => found.imp fun _ => And.right) And.right
  obtain ⟨members, base⟩ := yields
  cases op with
  | union =>
    refine iff_of_true ((Row.family_eq_iff fun x mem => ?_).mpr ⟨fun v => ?_, ?_⟩) trivial
    · exact (Finset.mem_union.mp mem).elim (small x) (small x)
    · rw [members, families, Finset.mem_union, Row.singleton_mem_family, Row.singleton_mem_family]
      rfl
    · rw [base, families, Finset.mem_union, Row.empty_mem_family, Row.empty_mem_family]
      exact Bool.or_eq_true _ _ ▸ Iff.rfl
  | intersection =>
    rw [families, Row.family_eq_iff fun x mem => small x (Finset.mem_inter.mp mem).1]
    have singles (v : VarId) : v ∈ u.1 ↔ {v} ∈ s.family ∩ t.family := by
      rw [members, Finset.mem_inter, Row.singleton_mem_family, Row.singleton_mem_family]
      rfl
    have last : s.1.getLast? = t.1.getLast? ↔
        ∀ v, IsGreatest {w | {w} ∈ s.family} v ↔ IsGreatest {w | {w} ∈ t.family} v := by
      rw [Option.ext_iff]
      exact forall_congr' fun v => by
        rw [orderedLeft.getLast?_eq_some_iff, orderedRight.getLast?_eq_some_iff]
    rw [base, keepsEmpty, Exact, Finset.mem_inter, Row.empty_mem_family,
      Row.empty_mem_family, ← last, Bool.and_eq_true, Bool.and_eq_true, decide_eq_true_iff]
    constructor
    · exact fun both left right => (both.2.mpr ⟨left, right⟩).2
    · exact fun exact_ => ⟨singles, ⟨And.left, fun both => ⟨both, exact_ both.1 both.2⟩⟩⟩
  | difference =>
    rw [families, Row.family_eq_iff fun x mem => small x (Finset.mem_sdiff.mp mem).1]
    have empty : u.2 = true ↔ ∅ ∈ s.family \ t.family := by
      rw [base, keepsEmpty, Finset.mem_sdiff, Row.empty_mem_family, Row.empty_mem_family,
        Bool.and_eq_true, Bool.not_eq_true', Bool.not_eq_true]
    simp only [Exact, Finset.mem_sdiff, Row.singleton_mem_family, Row.empty_mem_family]
    constructor
    · rintro ⟨eq, -⟩ left right both
      exact (((members _).mp ((eq u32Max).mpr ⟨left, right⟩)).2.2 ⟨rfl, both⟩)
    · intro exact_
      refine ⟨fun v => (members v).trans (and_congr_right fun left => ?_), ?_⟩
      · refine ⟨And.left, fun right => ⟨right, ?_⟩⟩
        rintro ⟨rfl, both⟩
        exact exact_ left right both
      · simpa only [Finset.mem_sdiff, Row.empty_mem_family] using empty

end ZddOp

namespace ZddManager

variable {m m' : ZddManager}

theorem Sound.node_cases (sound : m.Sound) {id : NodeId} (lists : m.Lists id s) :
    id = zddEmpty ∧ s = ([], false) ∨ id = zddBase ∧ s = ([], true) ∨
      ∃ v low s', s = s'.push v ∧ 2 ≤ id ∧ m.nodes[id]? = some ⟨v, low, zddBase⟩ ∧
        m.Lists low s' ∧ low < id := by
  obtain ⟨_ | ⟨v, vs⟩, b⟩ := s
  · cases b with
    | false => exact .inl ⟨sound.eq_empty lists, rfl⟩
    | true => exact .inr (.inl ⟨sound.eq_base lists, rfl⟩)
  · have denotes : m.Denotes id (.branch v (Row.tree (vs, b)) (.leaf true)) := lists
    cases denotes with
    | @node _ low high _ _ _ internal found left right =>
      obtain rfl : high = zddBase := sound.denotes_injective right .tt
      exact .inr (.inr ⟨v, low, (vs, b), rfl, internal, found, left, (sound.earlier internal found).1⟩)

theorem not_constant {id : NodeId} (internal : 2 ≤ id) : id ≠ zddEmpty ∧ id ≠ zddBase :=
  ⟨fun eq => absurd (eq ▸ internal) (by decide), fun eq => absurd (eq ▸ internal) (by decide)⟩

theorem familyWithin_base {depth : Nat} (pos : 0 < depth) : m.familyWithin depth zddBase = {∅} := by
  obtain ⟨depth, rfl⟩ := exists_eq_add_one_of_ne_zero pos.ne'
  rfl

theorem Sound.familyWithin_eq (sound : m.Sound) {depth : Nat} {id : NodeId}
    (lists : m.Lists id s) (deep : id < depth) : m.familyWithin depth id = s.family := by
  induction depth generalizing id s with
  | zero => exact absurd deep (not_lt_zero _)
  | succ depth ih =>
    rcases sound.node_cases lists with
      ⟨rfl, rfl⟩ | ⟨rfl, rfl⟩ | ⟨v, low, s', rfl, internal, found, listsLow, less⟩
    · rfl
    · rfl
    · obtain ⟨some_, inner⟩ := not_constant internal
      have deep' : low < depth := lt_of_lt_of_le less (le_of_lt_succ deep)
      rw [familyWithin, if_neg some_, if_neg inner, found]
      dsimp only
      rw [ih listsLow deep', familyWithin_base (zero_lt_of_lt deep'), Row.family_push,
        Finset.image_singleton]
      rfl

theorem Sound.family_eq (sound : m.Sound) {id : NodeId} {s : Row} (lists : m.Lists id s) :
    m.family id = s.family :=
  sound.familyWithin_eq lists (lt_succ_self id)

/-- What is counted before is right. -/
def Counted (m : ZddManager) (cache : NodeId → Option Nat) : Prop :=
  ∀ {id count s}, cache id = some count → m.Lists id s → count = s.size

theorem countRec_base {depth : Nat} (pos : 0 < depth) (cache : NodeId → Option Nat) :
    m.countRec depth zddBase cache = some (1, cache) := by
  obtain ⟨depth, rfl⟩ := exists_eq_add_one_of_ne_zero pos.ne'
  rfl

theorem Sound.countRec_spec (sound : m.Sound) {depth : Nat} {id : NodeId}
    (lists : m.Lists id s) (deep : id < depth) {cache : NodeId → Option Nat}
    (counted : m.Counted cache) :
    ∃ cache', m.countRec depth id cache = some (s.size, cache') ∧ m.Counted cache' := by
  induction depth generalizing id s with
  | zero => exact absurd deep (not_lt_zero _)
  | succ depth ih =>
    rcases sound.node_cases lists with
      ⟨rfl, rfl⟩ | ⟨rfl, rfl⟩ | ⟨v, low, s', rfl, internal, found, listsLow, less⟩
    · exact ⟨cache, rfl, counted⟩
    · exact ⟨cache, rfl, counted⟩
    · obtain ⟨some_, inner⟩ := not_constant internal
      rw [countRec, if_neg some_, if_neg inner]
      cases known : cache id with
      | some count =>
        rw [counted known lists]
        exact ⟨cache, rfl, counted⟩
      | none =>
        have deep' : low < depth := lt_of_lt_of_le less (le_of_lt_succ deep)
        obtain ⟨cache', eq, counted'⟩ := ih listsLow deep'
        have size : (s'.push v).size = s'.size + 1 := Row.size_push v s'
        have bound : s'.size + 1 < 2 ^ 64 := size ▸ (sound.ordered lists).size_lt
        simp only [found, eq, countRec_base (zero_lt_of_lt deep'), bind_eq_bind,
          bind_some, if_pos bound]
        rw [size]
        refine ⟨_, rfl, fun {id' count t} stored lists' => ?_⟩
        rw [Function.update_apply] at stored
        split at stored
        · subst id'
          rw [lists_unique lists' lists, size]
          exact (some.inj stored).symm
        · exact counted' stored lists'

theorem Sound.count_eq (sound : m.Sound) {id : NodeId} (valid : m.Valid id) :
    m.count id = some (m.family id).card := by
  obtain ⟨s, lists, ordered⟩ := sound.exists_lists valid
  have counted : m.Counted fun _ => none := fun known => nomatch known
  obtain ⟨cache, eq, -⟩ := sound.countRec_spec lists (lt_succ_self id) counted
  rw [count, eq, sound.family_eq lists, ordered.card_family]
  rfl

theorem sound_new : new.Sound := by
  refine ⟨NodeTable.wellFormed_new, fun {id tree} denotes => ?_, fun known => (nomatch known)⟩
  have bound : id < 2 := NodeTable.wellFormed_new.valid denotes
  cases denotes with
  | ff => exact ⟨([], false), rfl, .nil, fun v mem => nomatch mem⟩
  | tt => exact ⟨([], true), rfl, .nil, fun v mem => nomatch mem⟩
  | node internal => exact absurd internal (not_le.mpr bound)

theorem Reachable.sound (reachable : m.Reachable) : m.Sound := by
  induction reachable with
  | new => exact sound_new
  | singleton _ word sound => exact (sound.makeNode lists_empty word fun w mem => nomatch mem).1
  | apply _ validLeft validRight performed sound =>
    obtain ⟨s, listsLeft, -⟩ := sound.exists_lists validLeft
    obtain ⟨t, listsRight, -⟩ := sound.exists_lists validRight
    obtain ⟨result, m', u, eq, sound', -⟩ :=
      sound.applyWithin_spec _ listsLeft listsRight (lt_succ_self _)
    rw [ZddManager.apply, eq] at performed
    obtain ⟨-, rfl⟩ := Prod.mk.inj (some.inj performed)
    exact sound'
  | clearCache _ sound => exact ⟨sound.toWellFormed, sound.rows, fun known => (nomatch known)⟩

/--
Operations return a node of the manager that they leave, where older nodes keep their families.
-/
structure Performs (m : ZddManager) (op : ZddOp) (left right result : NodeId) (m' : ZddManager) :
    Prop where
  performed : m.apply op left right = some (result, m')
  valid : m'.Valid result
  older : ∀ {id}, m.Valid id → m'.Valid id ∧ m'.family id = m.family id

/--
The result has the right family exactly if the operation is exact on the two families, and all
families are counted right.
-/
theorem Reachable.family_apply_iff (reachable : m.Reachable) :
    (∀ id, m.Valid id → m.count id = some (m.family id).card) ∧
    ∀ op left right, m.Valid left → m.Valid right →
      ∃ result m', m.Performs op left right result m' ∧
        (m'.family result = op.families (m.family left) (m.family right) ↔
          op.Exact (m.family left) (m.family right)) := by
  have sound := reachable.sound
  refine ⟨fun id valid => sound.count_eq valid, fun op left right validLeft validRight => ?_⟩
  obtain ⟨s, listsLeft, orderedLeft⟩ := sound.exists_lists validLeft
  obtain ⟨t, listsRight, orderedRight⟩ := sound.exists_lists validRight
  obtain ⟨result, m', u, eq, sound', grows, lists, yields⟩ :=
    sound.applyWithin_spec op listsLeft listsRight (lt_succ_self _)
  refine ⟨result, m', ⟨eq, sound'.valid lists, fun {id} valid => ⟨grows.valid valid, ?_⟩⟩, ?_⟩
  · obtain ⟨r, lists', -⟩ := sound.exists_lists valid
    rw [sound.family_eq lists', sound'.family_eq (lists'.mono grows)]
  · rw [sound'.family_eq lists, sound.family_eq listsLeft, sound.family_eq listsRight]
    exact yields.family_eq_iff orderedLeft orderedRight

/-- The union of the empty set and of a single variable is exact. -/
theorem singleton_union : ∃ result m', (new.singleton 0).2.Performs .union 1 2 result m' ∧
    m'.family result = (new.singleton 0).2.family 1 ∪ (new.singleton 0).2.family 2 := by
  have reachable : (new.singleton 0).2.Reachable := .singleton .new (by decide)
  obtain ⟨result, m', performs, iff_⟩ :=
    (Reachable.family_apply_iff reachable).2 .union 1 2 (by decide) (by decide)
  exact ⟨result, m', performs, iff_.mpr trivial⟩

/-- The empty set is lost where two families end with different variables. -/
theorem intersection_loses_empty : ∃ m₁ m₂ m₃,
    ((new.singleton 0).2.singleton 1).2.union 1 2 = some (4, m₁) ∧ m₁.union 1 3 = some (5, m₂) ∧
    m₂.Reachable ∧ m₂.Valid 4 ∧ m₂.Valid 5 ∧ m₂.intersection 4 5 = some (0, m₃) ∧
    m₂.family 4 ∩ m₂.family 5 = {∅} ∧ m₃.family 0 = ∅ := by
  have reachable : ((new.singleton 0).2.singleton 1).2.Reachable :=
    .singleton (.singleton .new (by decide)) (by decide)
  have first := @Reachable.apply _ _ reachable .union 1 2 4 (by decide) (by decide) rfl
  have second := @Reachable.apply _ _ first .union 1 3 5 (by decide +kernel) (by decide +kernel) rfl
  exact ⟨_, _, _, rfl, rfl, second, by decide +kernel, by decide +kernel, rfl, by decide +kernel, by decide +kernel⟩

end ZddManager

end Nixie.Bdd
