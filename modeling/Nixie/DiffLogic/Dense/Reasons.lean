import Nixie.DiffLogic.Dense.Explain

/-! Explanations are live atoms whose constraints entail what they explain. -/

namespace Nixie.DiffLogic.Dense

open Nixie.Graph List

/-- The difference constraint of an edge. -/
def DlEdge.Holds (value : Nat → Int) (e : DlEdge) : Prop := value e.dst - value e.src ≤ e.offset

def DlAtomEntry.Holds (value : Nat → Int) (a : DlAtomEntry) : Prop :=
  if a.isEq then value a.t - value a.s = a.k else value a.t - value a.s ≤ a.k

def named (live : List DlEdge) (reason : List (Nat × Bool)) : List DlEdge :=
  live.filter fun e => (e.key, e.pol) ∈ reason

/-- Every atom of the reason is asserted. -/
def Asserted (live : List DlEdge) (reason : List (Nat × Bool)) : Prop :=
  ∀ atom ∈ reason, ∃ e ∈ live, (e.key, e.pol) = atom

/-- The reason consists of asserted atoms, which alone decide the atom with its polarity. -/
def Justified (live : List DlEdge) (core : DenseDlCore) (p : DlPropagation) : Prop :=
  Asserted live p.reason ∧ ∃ a, core.atomOf p.key = some a ∧
    ∀ value, (∀ e ∈ named live p.reason, e.Holds value) → (a.Holds value ↔ p.pol = true)

/-- The reason consists of asserted atoms, which alone have no solution. -/
def Inconsistent (live : List DlEdge) (reason : List (Nat × Bool)) : Prop :=
  Asserted live reason ∧ ¬ ∃ value, ∀ e ∈ named live reason, e.Holds value

/-- Registered atoms are found by their key, and watch the cells of their nodes. -/
structure Watched (core : DenseDlCore) : Prop where
  keyed : ∀ id a, core.atoms[id]? = some a → core.keyToAtom a.key = some id
  bound : ∀ key id, core.keyToAtom key = some id → id < core.atoms.length
  watched : ∀ y x id, id ∈ core.occs (y, x) → ∃ a, core.atoms[id]? = some a ∧
    ((a.s = y ∧ a.t = x) ∨ (a.s = x ∧ a.t = y))
  watches : ∀ id a, core.atoms[id]? = some a →
    id ∈ core.occs (a.s, a.t) ∧ id ∈ core.occs (a.t, a.s)

/-- The cell of two nodes bounds the difference of their values. -/
def Bounded (cells : Cells) (s t : Nat) (k : Int) : Prop :=
  (cells s t).dist ≠ dlInf ∧ (cells s t).dist ≤ k

/-- The cells give an atom this polarity; an equality is never refuted. -/
def Decided (cells : Cells) (a : DlAtomEntry) : Bool → Prop
  | true => Bounded cells a.s a.t a.k ∧ (a.isEq = true → Bounded cells a.t a.s (-a.k))
  | false => a.isEq = false ∧ Bounded cells a.t a.s (-a.k - 1)

/-- The atom takes this polarity from the cell. -/
def Reads (a : DlAtomEntry) (y x : Nat) (pol : Bool) : Prop :=
  (pol = true ∧ a.s = y ∧ a.t = x) ∨ ((pol = false ∨ a.isEq = true) ∧ a.s = x ∧ a.t = y)

def Queued (pending : List DlPropagation) (key : Nat) (pol : Bool) : Prop :=
  ∃ p ∈ pending, p.key = key ∧ p.pol = pol

theorem Decided.reads {cells cells' : Cells} {a : DlAtomEntry} {y x : Nat} {pol : Bool}
    (same : ∀ s t, ¬ (s = y ∧ t = x) → cells' s t = cells s t) (decided : Decided cells' a pol) :
    Decided cells a pol ∨ Reads a y x pol := by
  by_cases reads : Reads a y x pol
  · exact .inr reads
  · left
    unfold Reads at reads
    cases pol with
    | true =>
      have forward := same a.s a.t fun here => reads (.inl ⟨rfl, here⟩)
      refine ⟨?_, fun equality => ?_⟩
      · rw [Bounded, ← forward]
        exact decided.1
      · rw [Bounded, ← same a.t a.s fun here => reads (.inr ⟨.inr equality, here.symm⟩)]
        exact decided.2 equality
    | false =>
      refine ⟨decided.1, ?_⟩
      rw [Bounded, ← same a.t a.s fun here => reads (.inr ⟨.inl rfl, here.symm⟩)]
      exact decided.2

section

variable {cells : Cells} {edges live : List DlEdge} {a b : Nat} {ids : List Nat}
  {reason : List (Nat × Bool)}

theorem asserted_reasons (stored : ∀ e ∈ edges, e ∈ live) : Asserted live (reasons edges ids) := by
  intro atom mem
  obtain ⟨e, lies, rfl⟩ := mem_map.mp mem
  obtain ⟨id, _, found⟩ := mem_filterMap.mp lies
  exact ⟨e, stored e (mem_of_getElem? found), rfl⟩

theorem Asserted.append {more : List (Nat × Bool)} (first : Asserted live reason)
    (second : Asserted live more) : Asserted live (reason ++ more) := by
  intro atom mem
  rcases mem_append.mp mem with lies | lies
  · exact first atom lies
  · exact second atom lies

theorem Path.bound (path : Path cells edges a b ids) (diagonal : ∀ a, (cells a a).dist = 0)
    (stored : ∀ e ∈ edges, e ∈ live) (sub : reasons edges ids ⊆ reason) {value : Nat → Int}
    (holds : ∀ e ∈ named live reason, e.Holds value) : value b - value a ≤ (cells a b).dist := by
  obtain ⟨vertices, walk⟩ := path.walk diagonal
  -- The solution is a potential of the edges of the path.
  have potential : Potential (EdgeRel (ids.filterMap (edges[·]?))) value := by
    rintro x y w ⟨e, mem, rfl, rfl, rfl⟩
    obtain ⟨id, _, found⟩ := mem_filterMap.mp mem
    have satisfied := holds e (mem_filter.mpr ⟨stored e (mem_of_getElem? found),
      decide_eq_true (sub (mem_map_of_mem mem))⟩)
    unfold DlEdge.Holds at satisfied
    omega
  have bound := potential.walk walk
  omega

end

section

variable {n : Nat} {cells : Cells} {edges live : List DlEdge} {e : DlEdge} {core : DenseDlCore}

theorem watch_fields (y x id : Nat) : ∃ pending, core.pending ⊆ pending ∧
    DenseDlCore.watch y x core id = { core with pending := pending } := by
  have stays : ∃ pending, core.pending ⊆ pending ∧ core = { core with pending := pending } :=
    ⟨core.pending, .refl _, rfl⟩
  have pushes : ∀ key pol reason, ∃ pending, core.pending ⊆ pending ∧
      core.pushProp key pol reason = { core with pending := pending } := by
    intro key pol reason
    unfold DenseDlCore.pushProp
    split
    · exact stays
    · exact ⟨_, subset_append_left _ _, rfl⟩
  unfold DenseDlCore.watch
  split
  · exact stays
  · dsimp only
    split_ifs
    all_goals first | exact stays | exact pushes _ _ _

theorem mem_pushProp {key : Nat} {pol : Bool} {reason : List (Nat × Bool)} {p : DlPropagation}
    (mem : p ∈ (core.pushProp key pol reason).pending) :
    p ∈ core.pending ∨ p = ⟨key, pol, reason⟩ := by
  unfold DenseDlCore.pushProp at mem
  split at mem
  · exact .inl mem
  · rcases mem_append.mp mem with old | last
    · exact .inl old
    · exact .inr (mem_singleton.mp last)

theorem queued_pushProp (key : Nat) (pol : Bool) (reason : List (Nat × Bool)) :
    Queued (core.pushProp key pol reason).pending key pol := by
  unfold DenseDlCore.pushProp
  split
  · rename_i before
    obtain ⟨p, mem, same⟩ := any_eq_true.mp before
    exact ⟨p, mem, by simpa using same⟩
  · exact ⟨_, mem_concat_self, rfl, rfl⟩

/-- What a round begins with. -/
structure Start (n : Nat) (cells : Cells) (edges live : List DlEdge) (e : DlEdge) : Prop where
  exact_ : Exact n cells live
  supported : Supported cells edges live
  budget : n ≤ dlMaxNodes
  accepted : Accepted n cells e

/-- A core in the middle of the round of an edge. -/
structure Middle (n : Nat) (cells : Cells) (edges : List DlEdge) (e : DlEdge)
    (core : DenseDlCore) : Prop where
  number : core.n = n
  grown : core.edges = edges ++ [e]
  between : Between cells e edges.length core.cells

variable (start : Start n cells edges live e) (middle : Middle n cells edges e core) {y x : Nat}

include start middle

theorem Middle.diagonal (a : Nat) : (core.cells a a).dist = 0 := by
  rw [middle.between.stays fun improved => improved.2.2.1 rfl]
  exact start.exact_.diagonal a

theorem Middle.stored : ∀ f ∈ core.edges, f ∈ live ++ [e] := by
  intro f mem
  rw [middle.grown] at mem
  rcases mem_append.mp mem with old | last
  · exact mem_append_left _ (start.supported.stored f old)
  · exact mem_append_right _ last

theorem Middle.path (finite : (core.cells y x).dist ≠ dlInf)
    (settled : Improved cells e y x → core.cells y x = after cells e edges.length y x) :
    ∃ ids, Path core.cells core.edges y x ids ∧ core.antecedents y x = reasons core.edges ids := by
  by_cases improved : Improved cells e y x
  · obtain ⟨ids, path, distinct⟩ := start.supported.improved start.exact_ start.budget start.accepted
      middle.between improved (settled improved)
    rw [← middle.grown] at path
    exact ⟨ids, path, antecedents_eq path distinct⟩
  · rw [middle.between.stays improved] at finite
    obtain ⟨ids, path, distinct⟩ := start.supported.paths y x finite
    have path' := path.stays start.exact_ start.budget start.accepted start.supported.stored
      middle.between improved
    rw [← middle.grown] at path'
    exact ⟨ids, path', antecedents_eq path' distinct⟩

theorem Middle.explains (finite : (core.cells y x).dist ≠ dlInf)
    (settled : Improved cells e y x → core.cells y x = after cells e edges.length y x) :
    Asserted (live ++ [e]) (core.antecedents y x) ∧ ∀ reason, core.antecedents y x ⊆ reason →
      ∀ value, (∀ f ∈ named (live ++ [e]) reason, f.Holds value) →
        value x - value y ≤ (core.cells y x).dist := by
  obtain ⟨ids, path, same⟩ := middle.path start finite settled
  rw [same]
  exact ⟨asserted_reasons (middle.stored start), fun reason sub value holds =>
    path.bound (middle.diagonal start) (middle.stored start) sub holds⟩

theorem Middle.reverse_settled (written : core.cells y x = after cells e edges.length y x)
    (finite : (core.cells y x).dist ≠ dlInf)
    (cycle : (core.cells y x).dist + (core.cells x y).dist ≤ 0) (improved : Improved cells e x y) :
    core.cells x y = after cells e edges.length x y := by
  rcases middle.between x y with old | ⟨_, new⟩
  · -- Otherwise the round would make the cycle negative.
    have next := start.exact_.after start.budget start.accepted edges.length
    have less : (after cells e edges.length x y).dist < (core.cells x y).dist := by
      rw [old]
      unfold after
      rw [if_pos improved]
      exact improved.2.2.2
    have finite' : (after cells e edges.length x y).dist ≠ dlInf := by
      unfold after
      rw [if_pos improved]
      exact ne_of_lt (start.exact_.detour_lt start.budget start.accepted improved.2.1.2
        improved.1.2.1).1
    obtain ⟨_, bound⟩ := next.triangle (written ▸ finite) finite'
    have diagonal := next.diagonal y
    rw [← written] at bound
    omega
  · exact new

theorem Middle.both (finite : (core.cells y x).dist ≠ dlInf)
    (written : core.cells y x = after cells e edges.length y x)
    (back : (core.cells x y).dist ≠ dlInf)
    (cycle : (core.cells y x).dist + (core.cells x y).dist ≤ 0) :
    Asserted (live ++ [e]) (core.antecedents y x ++ core.antecedents x y) ∧
      ∀ value, (∀ f ∈ named (live ++ [e]) (core.antecedents y x ++ core.antecedents x y),
        f.Holds value) → value x - value y ≤ (core.cells y x).dist ∧
          value y - value x ≤ (core.cells x y).dist := by
  obtain ⟨asserted, bound⟩ := middle.explains start finite fun _ => written
  obtain ⟨asserted', bound'⟩ := middle.explains start back
    (middle.reverse_settled start written finite cycle)
  exact ⟨asserted.append asserted', fun value holds =>
    ⟨bound _ (subset_append_left _ _) value holds, bound' _ (subset_append_right _ _) value holds⟩⟩

theorem Middle.watch (watched : Watched core) (row : y < n) (col : x < n)
    (written : core.cells y x = after cells e edges.length y x)
    (finite : (core.cells y x).dist ≠ dlInf) {id : Nat} (lies : id ∈ core.occs (y, x))
    {p : DlPropagation} (mem : p ∈ (DenseDlCore.watch y x core id).pending) :
    p ∈ core.pending ∨ Justified (live ++ [e]) core p := by
  obtain ⟨a, found, ends⟩ := watched.watched y x id lies
  have atom : core.atomOf a.key = some a := by
    unfold DenseDlCore.atomOf
    rw [watched.keyed id a found]
    exact found
  -- The numbers that the code reads are those of the cells.
  have here : core.cells y x = ⟨core.distOf y x, core.supportOf y x⟩ :=
    DenseDlCore.cells_inside (middle.number ▸ row) (middle.number ▸ col)
  have there : core.cells x y = ⟨core.distOf x y, core.supportOf x y⟩ :=
    DenseDlCore.cells_inside (middle.number ▸ col) (middle.number ▸ row)
  have explained := middle.explains start finite fun _ => written
  have together := middle.both start finite written
  rw [here, there] at together
  rw [here] at explained
  dsimp only at explained together
  have known : core.known x y = true → core.distOf x y ≠ dlInf := by
    intro known
    unfold DenseDlCore.known at known
    rw [Bool.and_eq_true] at known
    exact of_decide_eq_true known.1
  unfold DenseDlCore.watch at mem
  rw [found] at mem
  dsimp only at mem
  split at mem
  · -- The atom bounds the improved cell.
    rename_i forward
    obtain ⟨rfl, rfl⟩ := forward
    split at mem
    · rename_i light
      split at mem
      · rename_i equality
        split at mem
        · -- Both directions of an equality.
          rename_i back
          refine (mem_pushProp mem).imp_right fun same => ?_
          obtain ⟨asserted, bounds⟩ := together (known back.1) (by omega)
          subst same
          refine ⟨asserted, a, atom, fun value holds => ?_⟩
          obtain ⟨upper, lower⟩ := bounds value holds
          simp only [DlAtomEntry.Holds, equality, if_true, iff_true]
          omega
        · exact .inl mem
      · rename_i bound
        refine (mem_pushProp mem).imp_right fun same => ?_
        subst same
        refine ⟨explained.1, a, atom, fun value holds => ?_⟩
        have upper := explained.2 _ (List.Subset.refl _) value holds
        simp only [DlAtomEntry.Holds, bound, iff_true]
        show value a.t - value a.s ≤ a.k
        omega
    · exact .inl mem
  · -- The atom bounds the way back.
    rename_i reversed
    obtain ⟨rfl, rfl⟩ := ends.resolve_left reversed
    split at mem
    · rename_i equality
      split at mem
      · rename_i back
        refine (mem_pushProp mem).imp_right fun same => ?_
        obtain ⟨asserted, bounds⟩ := together (known back.2.1) (by omega)
        subst same
        refine ⟨asserted, a, atom, fun value holds => ?_⟩
        obtain ⟨upper, lower⟩ := bounds value holds
        simp only [DlAtomEntry.Holds, equality, if_true, iff_true]
        omega
      · exact .inl mem
    · rename_i bound
      split at mem
      · -- The bound is violated.
        refine (mem_pushProp mem).imp_right fun same => ?_
        subst same
        refine ⟨explained.1, a, atom, fun value holds => ?_⟩
        have upper := explained.2 _ (List.Subset.refl _) value holds
        simp only [DlAtomEntry.Holds, bound, iff_false, Bool.false_eq_true]
        show ¬ value a.t - value a.s ≤ a.k
        omega
      · exact .inl mem

theorem Middle.known (row : y < n) (col : x < n) (finite : (core.cells y x).dist ≠ dlInf) :
    core.known y x = true := by
  have here : core.cells y x = ⟨core.distOf y x, core.supportOf y x⟩ :=
    DenseDlCore.cells_inside (middle.number ▸ row) (middle.number ▸ col)
  have supported : (core.cells y x).edge ≠ .noEdge := by
    rcases middle.between y x with old | ⟨-, new⟩
    · rw [old] at finite ⊢
      exact (start.exact_.known y x).not.mpr finite
    · rw [new] at finite ⊢
      have next := start.exact_.after start.budget start.accepted edges.length
      exact (next.known y x).not.mpr finite
  rw [here] at finite supported
  exact Bool.and_eq_true_iff.mpr ⟨decide_eq_true finite, decide_eq_true supported⟩

theorem Middle.watch_queues (row : y < n) (col : x < n) (apart : y ≠ x) {id : Nat}
    {a : DlAtomEntry} (found : core.atoms[id]? = some a) {pol : Bool}
    (decided : Decided core.cells a pol) (reads : Reads a y x pol) :
    Queued (DenseDlCore.watch y x core id).pending a.key pol := by
  have numbers : ∀ {s t k}, s < n → t < n → Bounded core.cells s t k →
      core.known s t = true ∧ core.distOf s t ≤ k := by
    intro s t k first second bounded
    refine ⟨middle.known start first second bounded.1, ?_⟩
    have bound := bounded.2
    rwa [DenseDlCore.cells_inside (middle.number ▸ first) (middle.number ▸ second)] at bound
  unfold DenseDlCore.watch
  rw [found]
  dsimp only
  rcases reads with ⟨rfl, rfl, rfl⟩ | ⟨kind, rfl, rfl⟩
  · -- The atom bounds the improved cell.
    rw [if_pos ⟨rfl, rfl⟩, if_pos (numbers row col decided.1).2]
    split
    · rename_i equality
      rw [if_pos (numbers col row (decided.2 equality))]
      exact queued_pushProp _ _ _
    · exact queued_pushProp _ _ _
  · rw [if_neg fun forward => apart forward.2]
    cases pol with
    | true =>
      have equality := kind.resolve_left (by decide)
      obtain ⟨known, bound⟩ := numbers col row decided.1
      rw [if_pos equality, if_pos ⟨(numbers row col (decided.2 equality)).2, known, bound⟩]
      exact queued_pushProp _ _ _
    | false =>
      have bound := (numbers row col decided.2).2
      rw [decided.1, if_neg Bool.false_ne_true, if_pos (by omega)]
      exact queued_pushProp _ _ _

end

end Nixie.DiffLogic.Dense
