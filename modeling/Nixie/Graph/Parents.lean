import Nixie.Graph.Walk

/-! Parent pointers of label correcting: their closed walks are negative, and ranks make long chains. -/

namespace Nixie.Graph

open List Option Function

variable {V W : Type*}

/-- The edges that parent pointers record, from the parent on. -/
def ParentEdge (parent : V → Option (V × W)) (a b : V) (w : W) : Prop := parent b = some (a, w)

section

variable [AddCommGroup W] {parent : V → Option (V × W)} {edge : V → V → W → Prop} {a b v : V} {w k : W}
  {vertices : List V} {n : Nat}

theorem Walk.avoid {other : V → V → W → Prop} (walk : Walk edge a vertices b w)
    (same : ∀ x y k, y ≠ v → edge x y k → other x y k) (apart : v ∉ vertices) (ends : v ≠ b) :
    Walk other a vertices b w := by
  -- By induction on the walk: the target of an edge is left by the next one, or is the end.
  induction walk with
  | nil => exact .nil _
  | @cons a b c w r vertices first rest ih =>
    have later := not_mem_of_not_mem_cons apart
    refine .cons (same _ _ _ ?_ first) (ih later ends)
    cases rest with
    | nil => exact ends.symm
    | cons => exact fun target => later (target ▸ .head _)

theorem Walk.simpleCycle : ∀ {length : Nat} {vertices : List V} {w : W}, vertices.length ≤ length →
    vertices ≠ [] → Walk edge a vertices a w →
      ∃ short v, Walk edge a short a v ∧ short ≠ [] ∧ short.Nodup := by
  -- By induction on the length: the part between two visits of a vertex is cut out.
  intro length
  induction length with
  | zero => exact fun bound some_ _ => absurd (length_eq_zero_iff.mp (Nat.le_zero.mp bound)) some_
  | succ length ih =>
    intro vertices w bound some_ walk
    by_cases distinct : vertices.Nodup
    · exact ⟨vertices, w, walk, some_, distinct⟩
    · obtain ⟨before, x, between, after, rfl⟩ := exists_repeated distinct
      obtain ⟨u, v, first, rest, rfl⟩ := walk.split
      rw [← cons_append] at rest
      obtain ⟨cycle, t, middle, last, rfl⟩ := rest.split
      exact ih (by simp at bound ⊢; omega) (by simp) (first.append last)

theorem ParentEdge.closed (step : ParentEdge parent a b k) (some_ : vertices ≠ [])
    (walk : Walk (ParentEdge parent) b vertices b w) :
    ∃ others r, Walk (ParentEdge parent) a others a r ∧ others ≠ [] := by
  -- The closed walk comes back over the only edge to its start.
  rcases walk.last with ⟨none_, _⟩ | ⟨front, u, r, l, before, step', _, _⟩
  · exact absurd none_ some_
  · obtain ⟨rfl, rfl⟩ := Prod.mk.inj (some.inj (step.symm.trans step'))
    exact ⟨_, _, .cons step before, cons_ne_nil _ _⟩

theorem exists_cycle (walk : Walk edge a vertices b w) (repeats : ¬ (vertices ++ [b]).Nodup) :
    ∃ x others r, Walk edge x others x r ∧ others ≠ [] := by
  by_cases distinct : vertices.Nodup
  · -- Only its end is met again.
    have again : b ∈ vertices := by
      by_contra apart
      exact repeats (distinct.append (nodup_singleton b) fun x lies last =>
        apart (mem_singleton.mp last ▸ lies))
    obtain ⟨before, behind, rfl⟩ := append_of_mem again
    obtain ⟨u, r, _, cycle, _⟩ := walk.split
    exact ⟨b, _, r, cycle, cons_ne_nil _ _⟩
  · obtain ⟨before, x, between, after, rfl⟩ := exists_repeated distinct
    obtain ⟨u, v, _, rest, _⟩ := walk.split
    rw [← cons_append] at rest
    obtain ⟨cycle, t, middle, _, _⟩ := rest.split
    exact ⟨x, _, cycle, middle, cons_ne_nil _ _⟩

theorem exists_closed (few : FewSources (ParentEdge parent) n)
    (walk : Walk (ParentEdge parent) a vertices b w) (long : n < vertices.length) :
    ∃ others r, Walk (ParentEdge parent) a others a r ∧ others ≠ [] := by
  -- A vertex that is left twice is on a closed walk, and so are those before it.
  have repeats : ¬ vertices.Nodup := fun distinct => absurd (few walk distinct) (not_le.mpr long)
  obtain ⟨before, x, between, after, rfl⟩ := exists_repeated repeats
  obtain ⟨u, v, first, rest, rfl⟩ := walk.split
  rw [← cons_append] at rest
  obtain ⟨cycle, t, middle, last, _⟩ := rest.split
  have closed : ∃ others r, Walk (ParentEdge parent) x others x r ∧ others ≠ [] :=
    ⟨_, _, middle, cons_ne_nil _ _⟩
  clear walk long repeats rest middle last
  induction first with
  | nil => exact closed
  | cons step _ ih =>
    obtain ⟨others, r, closed, some_⟩ := ih closed
    exact step.closed some_ closed

theorem exists_chain (parent : V → Option (V × W)) (b : V) : ∀ m : Nat,
    (∃ a vertices w, Walk (ParentEdge parent) a vertices b w ∧ vertices.length = m) ∨
      ∃ a vertices w, Walk (ParentEdge parent) a vertices b w ∧ vertices.length < m ∧ parent a = none := by
  -- By induction on the number of steps.
  intro m
  induction m with
  | zero => exact .inl ⟨b, [], 0, .nil b, rfl⟩
  | succ m ih =>
    rcases ih with ⟨a, vertices, w, walk, rfl⟩ | ⟨a, vertices, w, walk, short, root⟩
    · cases found : parent a with
      | none => exact .inr ⟨a, vertices, w, walk, Nat.lt_succ_self _, found⟩
      | some step => exact .inl ⟨step.1, step.1 :: vertices, _, .cons found walk, rfl⟩
    · exact .inr ⟨a, vertices, w, walk, short.trans (Nat.lt_succ_self m), root⟩

/-- Ranks that grow by at most one along parent pointers, and are zero where there is no parent. -/
structure Ranked (parent : V → Option (V × W)) (rank : V → Nat) : Prop where
  step : ∀ a b w, ParentEdge parent a b w → rank b ≤ rank a + 1
  some_ : ∀ b, 0 < rank b → parent b ≠ none

theorem Ranked.chain {rank : V → Nat} (ranked : Ranked parent rank) : ∀ {m : Nat} {b : V},
    m ≤ rank b → ∃ a vertices w, Walk (ParentEdge parent) a vertices b w ∧ vertices.length = m := by
  -- By induction on the length: the parent has the rank for the rest of the chain.
  intro m
  induction m with
  | zero => exact fun _ => ⟨_, [], 0, .nil _, rfl⟩
  | succ m ih =>
    intro b high
    obtain ⟨⟨u, k⟩, found⟩ := ne_none_iff_exists'.mp (ranked.some_ b (by omega))
    have below := ranked.step u b k found
    obtain ⟨a, vertices, w, walk, length⟩ := @ih u (by omega)
    exact ⟨a, vertices ++ [u], w + k, walk.append (.single found), by simp [length]⟩

omit [AddCommGroup W] in
theorem Ranked.update [DecidableEq V] {rank : V → Nat} (ranked : Ranked parent rank) {u : V} {r : Nat}
    (below : rank v ≤ r) (above : r ≤ rank u + 1) :
    Ranked (Function.update parent v (some (u, w))) (Function.update rank v r) := by
  have grows : ∀ x, rank x ≤ Function.update rank v r x := by
    intro x
    by_cases same : x = v <;> simp [same, below]
  constructor
  · intro a b k step
    unfold ParentEdge at step
    by_cases same : b = v
    · subst same
      simp only [update_self, some.injEq, Prod.mk.injEq] at step ⊢
      exact above.trans (Nat.succ_le_succ (step.1 ▸ grows u))
    · rw [update_of_ne same] at step ⊢
      exact (ranked.step a b k step).trans (Nat.succ_le_succ (grows a))
  · intro b high
    by_cases same : b = v
    · simp [same]
    · rw [update_of_ne same] at high ⊢
      exact ranked.some_ b high

end

variable [AddCommGroup W] [LinearOrder W] [IsOrderedAddMonoid W] {edge : V → V → W → Prop}
  {init dist : V → Option W} {parent : V → Option (V × W)} {u v a b : V} {du d w : W} {vertices : List V}

/-- The parent pointers that belong to labels, some of which may still be unknown. -/
structure Parents (edge : V → V → W → Prop) (init dist : V → Option W) (parent : V → Option (V × W)) :
    Prop where
  edges : ∀ a b w, ParentEdge parent a b w → edge a b w
  tight : ∀ a b w, ParentEdge parent a b w → ∃ da db, dist a = some da ∧ dist b = some db ∧ da + w ≤ db
  closed : ∀ a vertices w, Walk (ParentEdge parent) a vertices a w → vertices ≠ [] → w < 0
  fresh : ∀ v, parent v = none → dist v = init v

omit [IsOrderedAddMonoid W] in
theorem Parents.start : Parents edge init init fun _ => none where
  edges := fun _ _ _ step => nomatch step
  tight := fun _ _ _ step => nomatch step
  closed := by
    intro a vertices w walk some_
    cases walk with
    | nil => exact absurd rfl some_
    | cons first => cases first
  fresh := fun _ _ => rfl

theorem label_walk {loose : V → Prop} (tight : ∀ a b w, ParentEdge parent a b w → ∃ da db,
      dist a = some da ∧ dist b = some db ∧ da + w ≤ db ∧ (loose a → da + w < db))
    (walk : Walk (ParentEdge parent) a vertices b w) : ∀ {da}, dist a = some da →
      ∃ db, dist b = some db ∧ da + w ≤ db ∧ ((∃ v ∈ vertices, loose v) → da + w < db) := by
  -- By induction on the walk, whose differences add up.
  induction walk with
  | nil => exact fun known => ⟨_, known, (add_zero _).le, by simp⟩
  | cons first _ ih =>
    intro da known
    obtain ⟨_, d, known', target, bound, strict⟩ := tight _ _ _ first
    obtain rfl := some.inj (known.symm.trans known')
    obtain ⟨db, known'', bound', strict'⟩ := ih target
    rw [← add_assoc]
    refine ⟨db, known'', (add_le_add bound le_rfl).trans bound', ?_⟩
    rintro ⟨v, mem, slack⟩
    rcases mem_cons.mp mem with rfl | later
    · exact (add_lt_add_of_lt_of_le (strict slack) le_rfl).trans_le bound'
    · exact (add_le_add bound le_rfl).trans_lt (strict' ⟨v, later, slack⟩)

theorem Parents.walk (parents : Parents edge init dist parent)
    (walk : Walk (ParentEdge parent) a vertices b w) {da : W} (known : dist a = some da) :
    ∃ db, dist b = some db ∧ da + w ≤ db := by
  have tight : ∀ a b w, ParentEdge parent a b w → ∃ da db,
      dist a = some da ∧ dist b = some db ∧ da + w ≤ db ∧ (False → da + w < db) := by
    intro a b w step
    obtain ⟨da, db, source, target, bound⟩ := parents.tight a b w step
    exact ⟨da, db, source, target, bound, False.elim⟩
  obtain ⟨db, target, bound, _⟩ := label_walk tight walk known
  exact ⟨db, target, bound⟩

theorem Parents.update [DecidableEq V] (parents : Parents edge init dist parent) (step : edge u v w)
    (source : dist u = some d) (sunk : d ≤ du) (light : ∀ e, dist v = some e → du + w < e) :
    Parents edge init (Function.update dist v (some (du + w)))
      (Function.update parent v (some (u, w))) := by
  -- Edges from the vertex become strict, since its label sinks.
  have tight : ∀ a b k, ParentEdge (Function.update parent v (some (u, w))) a b k →
      ∃ da db, Function.update dist v (some (du + w)) a = some da ∧
        Function.update dist v (some (du + w)) b = some db ∧ da + k ≤ db ∧ (a = v → da + k < db) := by
    intro a b k pointer
    unfold ParentEdge at pointer
    by_cases target : b = v
    · subst target
      simp only [update_self, some.injEq, Prod.mk.injEq] at pointer ⊢
      obtain ⟨rfl, rfl⟩ := pointer
      by_cases loop : u = b
      · subst loop
        have sinks := light d source
        have negative : w < 0 := by
          by_contra pos
          exact absurd (sinks.trans_le sunk) (not_lt.mpr (le_add_of_nonneg_right (not_lt.mp pos)))
        have lower := add_lt_of_neg_right (du + w) negative
        exact ⟨du + w, du + w, update_self .., rfl, lower.le, fun _ => lower⟩
      · exact ⟨d, du + w, (update_of_ne loop ..).trans source, rfl, add_le_add sunk le_rfl,
          fun same => absurd same loop⟩
    · rw [update_of_ne target] at pointer ⊢
      obtain ⟨da, db, known, known', bound⟩ := parents.tight a b k pointer
      by_cases origin : a = v
      · subst origin
        have sinks := (add_lt_add_of_lt_of_le (light da known) (le_refl k)).trans_le bound
        exact ⟨du + w, db, update_self .., known', sinks.le, fun _ => sinks⟩
      · exact ⟨da, db, (update_of_ne origin ..).trans known, known', bound,
          fun same => absurd same origin⟩
  refine ⟨?_, fun a b k pointer => ?_, ?_, ?_⟩
  · intro a b k pointer
    unfold ParentEdge at pointer
    by_cases target : b = v
    · subst target
      simp only [update_self, some.injEq, Prod.mk.injEq] at pointer
      exact pointer.1 ▸ pointer.2 ▸ step
    · rw [update_of_ne target] at pointer
      exact parents.edges a b k pointer
  · obtain ⟨da, db, known, known', bound, _⟩ := tight a b k pointer
    exact ⟨da, db, known, known', bound⟩
  · intro a vertices r walk some_
    by_cases mem : v ∈ vertices
    · -- A walk through the vertex has a strict edge.
      obtain ⟨rest, pointer⟩ : ∃ b k, ParentEdge (Function.update parent v (some (u, w))) a b k := by
        cases walk with
        | nil => exact absurd rfl some_
        | cons first => exact ⟨_, _, first⟩
      obtain ⟨k, pointer⟩ := pointer
      obtain ⟨da, _, known, _⟩ := tight a rest k pointer
      obtain ⟨db, known', _, strict⟩ := label_walk tight walk known
      obtain rfl := some.inj (known.symm.trans known')
      exact add_lt_iff_neg_left.mp (strict ⟨v, mem, rfl⟩)
    · -- Other closed walks were there before.
      have apart : v ≠ a := by
        rintro rfl
        cases walk with
        | nil => exact some_ rfl
        | cons => exact mem (.head _)
      refine parents.closed a vertices r (walk.avoid (fun x y k other pointer => ?_) mem apart) some_
      unfold ParentEdge at pointer ⊢
      rwa [update_of_ne other] at pointer
  · intro x none_
    by_cases same : x = v
    · simp [same] at none_
    · rw [update_of_ne same] at none_ ⊢
      exact parents.fresh x none_

end Nixie.Graph
