import Nixie.Euf.Classes

/-! An explanation collects merges that support each other and the explained equality. -/

namespace Nixie.Euf

open Forest EufSolver List Option

variable {s : EufSolver} {merges : List (Nat × Nat × Nat)}
  {log : List (Nat × Nat × MergeReason)}

theorem Applied.mono {properties : Nat → FunctionProperties} {nodes : List ENode}
    {related larger : Nat → Nat → Prop} {x y : Nat}
    (included : ∀ x y, related x y → larger x y)
    (applied : Applied properties nodes related x y) : Applied properties nodes larger x y := by
  obtain ⟨left, right, arranged, hereX, hereY, appX, appY, funcs, order, length, pairs⟩ := applied
  exact ⟨left, right, arranged, hereX, hereY, appX, appY, funcs, order, length,
    fun pair mem => included _ _ (pairs pair mem)⟩

/-- Logged merges of which each congruence is supported by chosen ones follow from the chosen
assertions: the support can be moved to older chosen merges. -/
theorem chosen_follows {chosen : Nat × Nat × MergeReason → Prop} {equations : Nat → Nat → Prop}
    (forest : IsForest ends log)
    (supported : Supported s.functionProperties s.nodes merges log)
    (asserted : ∀ x y term, chosen (x, y, .assertion term) → (x, y, .assertion term) ∈ log →
      equations x y)
    (congruent : ∀ x y term1 term2, chosen (x, y, .congruence term1 term2) →
      (x, y, .congruence term1 term2) ∈ log → Applied s.functionProperties s.nodes
        (Joins ends fun entry => chosen entry ∧ entry ∈ log) term1 term2) {x y : Nat}
    (joined : Joins ends (fun entry => chosen entry ∧ entry ∈ log) x y) :
    Follows s equations x y := by
  -- The induction is on the part of the log that is older than some merge.
  have suffix : ∀ older newer, log = newer ++ older →
      Supported s.functionProperties s.nodes merges older → ∀ {x y},
        Joins ends (fun entry => chosen entry ∧ entry ∈ older) x y → Follows s equations x y := by
    intro older
    induction older with
    | nil => exact fun newer _ _ x y joined => joined.least Closure.equivalence (by simp)
    | cons entry older ih =>
      intro newer split supported x y joined
      obtain ⟨a, b, reason⟩ := entry
      obtain ⟨first, rest⟩ := supported
      have split' : log = (newer ++ [(a, b, reason)]) ++ older := by rw [split]; simp
      refine joined.least Closure.equivalence fun edge ⟨chose, mem⟩ => ?_
      rcases mem_cons.mp mem with rfl | old
      · have inLog : (a, b, reason) ∈ log := by rw [split]; simp
        cases reason with
        | assertion term => exact .base (asserted a b term chose inLog)
        | congruence term1 term2 =>
          obtain ⟨rfl, rfl, left, right, older_, hereX, hereY, appX, appY, funcs, orderOlder,
            lengthOlder, alongOlder⟩ := first
          obtain ⟨left', right', chosen_, hereX', hereY', _, _, _, orderChosen, lengthChosen,
            alongChosen⟩ := congruent _ _ _ _ chose inLog
          obtain rfl : left' = left := some.inj (hereX'.symm.trans hereX)
          obtain rfl : right' = right := some.inj (hereY'.symm.trans hereY)
          rw [split'] at forest alongChosen
          obtain ⟨arranged, order, length, pairs⟩ := forest.exists_arranged orderOlder orderChosen
            lengthOlder lengthChosen alongOlder alongChosen
          refine @Applied.follows s (Joins ends fun entry => chosen entry ∧ entry ∈ older) _ _ _
            ⟨left', right', arranged, hereX, hereY, appX, appY, funcs, order, length, pairs⟩ ?_
          exact fun x y joined => ih _ split' rest joined
      · exact ih _ split' rest (.edge ⟨chose, old⟩)
  exact suffix log [] rfl supported joined

theorem Invariant.applied (inv : Invariant s merges log) {x y term1 term2 : Nat}
    (mem : (x, y, .congruence term1 term2) ∈ log) :
    x = term1 ∧ y = term2 ∧ Applied s.functionProperties s.nodes
      (fun x y => s.root x = s.root y) term1 term2 := by
  obtain ⟨newer, older, split⟩ := append_of_mem mem
  have supported : Supported s.functionProperties s.nodes merges
      ((x, y, .congruence term1 term2) :: older) := by
    have whole := inv.supported
    rw [split] at whole
    clear split mem
    induction newer with
    | nil => exact whole
    | cons entry newer ih => exact ih whole.2
  obtain ⟨⟨left, right, applied⟩, _⟩ := supported
  refine ⟨left, right, applied.mono fun u v joined => (inv.classes u v).mpr (joined.mono ?_)⟩
  exact fun entry old => by
    rw [split]
    exact mem_append_right _ (mem_cons_of_mem _ old)

theorem takePartner_spec (s : EufSolver) (arg : Nat) :
    ∀ (others : List Nat), (∃ other ∈ others, s.root arg = s.root other) →
      ∃ partner rest, s.takePartner arg others = some (partner, rest) ∧
        others.Perm (partner :: rest) ∧ s.root arg = s.root partner ∧
        ∀ first tail, others = first :: tail → s.root arg = s.root first →
          partner = first ∧ rest = tail := by
  intro others
  induction others with
  | nil => simp
  | cons other rest ih =>
    intro ⟨found, mem, equal⟩
    rw [takePartner]
    by_cases fits : s.root arg = s.root other
    · have taken : other = arg ∨ s.areEqual arg other = true :=
        .inr (by rw [areEqual]; exact decide_eq_true fits)
      rw [if_pos taken]
      exact ⟨other, rest, rfl, .refl _, fits, fun first tail split _ => cons.inj split⟩
    · have skipped : ¬ (other = arg ∨ s.areEqual arg other = true) := by
        rintro (rfl | equal)
        · exact fits rfl
        · rw [areEqual] at equal
          exact fits (of_decide_eq_true equal)
      rw [if_neg skipped]
      have later : found ∈ rest := by
        rcases mem_cons.mp mem with rfl | later
        · exact absurd equal fits
        · exact later
      obtain ⟨partner, remaining, result, perm, same, _⟩ := ih ⟨found, later, equal⟩
      refine ⟨partner, other :: remaining, by rw [result]; rfl, ?_, same, ?_⟩
      · exact (perm.cons other).trans (.swap partner other remaining)
      · intro first tail split equal
        rw [(cons.inj split).1] at fits
        exact absurd equal fits

/-- What a set of goals has grown to. -/
structure Goals.Advances (goals after : Goals) : Prop where
  enqueued : ∀ pair ∈ goals.enqueued, pair ∈ after.enqueued
  asked : ∀ pair ∈ after.enqueued, pair ∈ goals.enqueued ∨
    ∃ goal ∈ after.todo, orderedPair goal.1 goal.2 = pair
  todo : ∀ goal ∈ goals.todo, goal ∈ after.todo
  reasons : ∀ term ∈ goals.reasons, term ∈ after.reasons
  count : after.todo.length + goals.enqueued.length = goals.todo.length + after.enqueued.length

theorem Goals.Advances.refl (goals : Goals) : goals.Advances goals :=
  ⟨fun _ mem => mem, fun _ mem => .inl mem, fun _ mem => mem,
    fun _ mem => mem, rfl⟩

variable {goals : Goals}

theorem Goals.Advances.trans {middle after : Goals} (first : goals.Advances middle)
    (second : middle.Advances after) : goals.Advances after where
  enqueued := fun pair mem => second.enqueued pair (first.enqueued pair mem)
  asked := by
    intro pair mem
    rcases second.asked pair mem with old | new
    · rcases first.asked pair old with older | ⟨goal, listed, same⟩
      · exact .inl older
      · exact .inr ⟨goal, second.todo goal listed, same⟩
    · exact .inr new
  todo := fun goal mem => second.todo goal (first.todo goal mem)
  reasons := fun term mem => second.reasons term (first.reasons term mem)
  count := by
    have one := first.count
    have two := second.count
    omega

/-- Goals are about equal nodes, and reasons come from logged merges. -/
structure Goals.Valid (s : EufSolver) (log : List (Nat × Nat × MergeReason)) (goals : Goals) :
    Prop where
  inside : ∀ pair ∈ goals.enqueued, pair.1 < s.nodes.length ∧ pair.2 < s.nodes.length
  nodup : goals.enqueued.Nodup
  exists_ : ∀ goal ∈ goals.todo, goal.1 < s.nodes.length ∧ goal.2 < s.nodes.length
  equal : ∀ goal ∈ goals.todo, s.root goal.1 = s.root goal.2
  reasons : ∀ term ∈ goals.reasons, term ≠ 0 ∧ ∃ x y, (x, y, .assertion term) ∈ log

theorem orderedPair_inside {count x y : Nat} (left : x < count) (right : y < count) :
    (orderedPair x y).1 < count ∧ (orderedPair x y).2 < count := by
  unfold orderedPair
  split
  · exact ⟨left, right⟩
  · exact ⟨right, left⟩

theorem Goals.Valid.ask {arg1 arg2 : Nat} (valid : goals.Valid s log)
    (inside1 : arg1 < s.nodes.length) (inside2 : arg2 < s.nodes.length)
    (equal : s.root arg1 = s.root arg2) :
    goals.Advances (goals.ask s.nodes.length arg1 arg2) ∧
      (goals.ask s.nodes.length arg1 arg2).Valid s log ∧
      (arg1 = arg2 ∨ orderedPair arg1 arg2 ∈ (goals.ask s.nodes.length arg1 arg2).enqueued) := by
  unfold Goals.ask
  split
  · rename_i fresh
    obtain ⟨_, _, _, fresh⟩ := fresh
    refine ⟨⟨fun pair mem => mem_cons_of_mem _ mem, ?_,
      fun goal mem => mem_cons_of_mem _ mem, fun _ mem => mem, ?_⟩, ?_,
      .inr (mem_cons_self ..)⟩
    · intro pair mem
      rcases mem_cons.mp mem with rfl | old
      · exact .inr ⟨(arg1, arg2), mem_cons_self .., rfl⟩
      · exact .inl old
    · simp only [length_cons]
      omega
    · exact {
        inside := by
          intro pair mem
          rcases mem_cons.mp mem with rfl | old
          · exact orderedPair_inside inside1 inside2
          · exact valid.inside pair old
        nodup := nodup_cons.mpr ⟨fresh, valid.nodup⟩
        exists_ := by
          intro goal mem
          rcases mem_cons.mp mem with rfl | old
          · exact ⟨inside1, inside2⟩
          · exact valid.exists_ goal old
        equal := by
          intro goal mem
          rcases mem_cons.mp mem with rfl | old
          · exact equal
          · exact valid.equal goal old
        reasons := valid.reasons }
  · rename_i old
    refine ⟨.refl goals, valid, ?_⟩
    by_cases same : arg1 = arg2
    · exact .inl same
    · simp only [same, not_false_eq_true, inside1, inside2, true_and, ne_eq, not_not] at old
      exact .inr old

/-- Arguments whose classes agree are matched within the classes, in place if the classes agree in
place. -/
theorem Goals.Valid.schedule : ∀ (args : List Nat) {unmatched : List Nat} {goals : Goals},
    goals.Valid s log → (∀ arg ∈ args, arg < s.nodes.length) →
    (∀ arg ∈ unmatched, arg < s.nodes.length) →
    (args.map s.root).Perm (unmatched.map s.root) →
    ∃ after arranged,
      s.scheduleCongruenceSubgoals s.nodes.length args unmatched goals = some after ∧
      goals.Advances after ∧ after.Valid s log ∧ arranged.Perm unmatched ∧
      args.length = arranged.length ∧
      (∀ pair ∈ args.zip arranged, pair.1 = pair.2 ∨ orderedPair pair.1 pair.2 ∈ after.enqueued) ∧
      (args.map s.root = unmatched.map s.root → arranged = unmatched) := by
  intro args
  induction args with
  | nil =>
    intro unmatched goals valid _ _ perm
    have none_ : unmatched = [] := by simpa using perm.symm
    subst none_
    exact ⟨goals, [], rfl, .refl goals, valid, .refl _, rfl, by simp, fun _ => rfl⟩
  | cons arg rest ih =>
    intro unmatched goals valid insideArgs insideOthers perm
    have mem : s.root arg ∈ unmatched.map s.root := perm.subset (by simp)
    obtain ⟨other, listed, equal⟩ := mem_map.mp mem
    obtain ⟨partner, remaining, taken, order, same, first⟩ :=
      takePartner_spec s arg unmatched ⟨other, listed, equal.symm⟩
    have insidePartner : partner < s.nodes.length :=
      insideOthers partner (order.symm.subset (mem_cons_self ..))
    obtain ⟨advances, valid', found⟩ := @Goals.Valid.ask s log goals arg partner valid
      (insideArgs arg (mem_cons_self ..)) insidePartner same
    -- Without the matched arguments the classes still agree.
    have perm' : (rest.map s.root).Perm (remaining.map s.root) := by
      have whole := perm.trans (order.map s.root)
      rw [map_cons, map_cons, same] at whole
      exact whole.cons_inv
    obtain ⟨after, arranged, result, advances', valid'', order', length, pairs, inPlace⟩ :=
      @ih remaining _ valid' (fun other mem => insideArgs other (mem_cons_of_mem _ mem))
        (fun other mem => insideOthers other
          (order.symm.subset (mem_cons_of_mem _ mem))) perm'
    refine ⟨after, partner :: arranged, ?_, advances.trans advances', valid'',
      (order'.cons partner).trans order.symm, by simp [length], ?_, ?_⟩
    · rw [scheduleCongruenceSubgoals, taken]
      exact result
    · intro pair mem
      rcases mem_cons.mp mem with rfl | later
      · rcases found with same | asked
        · exact .inl same
        · exact .inr (advances'.enqueued _ asked)
      · exact pairs pair later
    · intro images
      cases unmatched with
      | nil => simp at images
      | cons head tail =>
        rw [map_cons, map_cons, cons.injEq] at images
        obtain ⟨rfl, rfl⟩ := first head tail rfl images.1
        rw [inPlace images.2]

/-- A logged merge whose reason, or whose argument pairs, are among the goals. -/
def Covered (s : EufSolver) (goals : Goals) : Nat × Nat × MergeReason → Prop
  | (_, _, .assertion term) => term = 0 ∨ term ∈ goals.reasons
  | (_, _, .congruence term1 term2) => Applied s.functionProperties s.nodes
      (fun x y => x = y ∨ orderedPair x y ∈ goals.enqueued) term1 term2

theorem Covered.advance {after : Goals} {entry : Nat × Nat × MergeReason}
    (advances : goals.Advances after) (covered : Covered s goals entry) :
    Covered s after entry := by
  obtain ⟨x, y, reason⟩ := entry
  cases reason with
  | assertion term => exact covered.imp_right (advances.reasons term)
  | congruence term1 term2 =>
    have applied : Applied s.functionProperties s.nodes
      (fun x y => x = y ∨ orderedPair x y ∈ goals.enqueued) term1 term2 := covered
    exact applied.mono fun x y paired => paired.imp_right (advances.enqueued _)

theorem Goals.Valid.addReason (valid : goals.Valid s log) {x y term : Nat}
    (mem : (x, y, .assertion term) ∈ log) :
    goals.Advances (goals.addReason term) ∧ (goals.addReason term).Valid s log ∧
      (term = 0 ∨ term ∈ (goals.addReason term).reasons) := by
  unfold Goals.addReason
  split
  · rename_i fresh
    refine ⟨⟨fun _ mem => mem, fun _ mem => .inl mem, fun _ mem => mem,
      fun other old => mem_append_left _ old, rfl⟩, { valid with reasons := ?_ },
      .inr (by simp)⟩
    intro other listed
    rcases mem_append.mp listed with old | new
    · exact valid.reasons other old
    · rw [mem_singleton.mp new]
      exact ⟨fresh.1, x, y, mem⟩
  · rename_i known
    refine ⟨.refl goals, valid, ?_⟩
    by_cases zero : term = 0
    · exact .inl zero
    · exact .inr (by simpa [zero] using known)

theorem Invariant.explainEdge (inv : Invariant s merges log)
    (valid : goals.Valid s log) {owner : Nat} {edge : MergeEdge}
    (listed : edge ∈ s.proofForest.lists owner) :
    ∃ after entry, s.explainEdge s.nodes.length edge goals = some after ∧
      goals.Advances after ∧ after.Valid s log ∧ entry ∈ log ∧ Covered s after entry ∧
      (ends entry = (owner, edge.other) ∨ ends entry = (edge.other, owner)) := by
  obtain ⟨other, reason, stamp⟩ := edge
  obtain ⟨entry, mem, reason_, ends_⟩ : ∃ entry, entry ∈ log ∧ entry.2.2 = reason ∧
      (ends entry = (owner, other) ∨ ends entry = (other, owner)) := by
    rcases (inv.edges owner other reason).mp ⟨stamp, listed⟩ with forward | backward
    · exact ⟨_, forward, rfl, .inl rfl⟩
    · exact ⟨_, backward, rfl, .inr rfl⟩
  obtain ⟨x, y, reason'⟩ := entry
  obtain rfl : reason' = reason := reason_
  cases reason' with
  | assertion term =>
    obtain ⟨advances, valid', covered⟩ := valid.addReason mem
    exact ⟨_, _, rfl, advances, valid', mem, covered, ends_⟩
  | congruence term1 term2 =>
    obtain ⟨_, _, left, right, matched, hereX, hereY, appX, appY, funcs, order, length, pairs⟩ :=
      inv.applied mem
    have images := map_eq_map_iff_zip.mpr ⟨length, pairs⟩
    have perm : matched.Perm right.args := by
      unfold Arranged at order
      split at order
      · exact order
      · rw [order]
    have insideL := inv.args left (mem_of_getElem? hereX)
    have insideR := inv.args right (mem_of_getElem? hereY)
    obtain ⟨after, arranged, result, advances, valid', order', length', covered, inPlace⟩ :=
      @Goals.Valid.schedule s log left.args right.args goals valid insideL insideR
        (images ▸ perm.map s.root)
    refine ⟨after, _, ?_, advances, valid', mem, ?_, ends_⟩
    · have same : ¬ left.args.length ≠ right.args.length := by
        rw [not_not, length, perm.length_eq]
      simp only [EufSolver.explainEdge, hereX, hereY, if_neg same, result]
    · refine ⟨left, right, arranged, hereX, hereY, appX, appY, funcs, ?_, length', covered⟩
      -- A symbol that is not commutative had its arguments matched in place.
      unfold Arranged at order ⊢
      split
      · exact order'
      · rename_i plain
        rw [if_neg plain] at order
        exact inPlace (order ▸ images)

theorem Invariant.explainPath (inv : Invariant s merges log) :
    ∀ (path : List (Nat × Nat)) {goals : Goals}, goals.Valid s log →
      (∀ step ∈ path, ∃ edge, (s.proofForest.lists step.1)[step.2]? = some edge) →
      ∃ (after : Goals) (entries : List (Nat × Nat × MergeReason)),
        s.explainPath s.nodes.length path goals = some after ∧
        goals.Advances after ∧ after.Valid s log ∧
        (∀ entry ∈ entries, entry ∈ log ∧ Covered s after entry) ∧
        ∀ step ∈ path, ∀ edge, (s.proofForest.lists step.1)[step.2]? = some edge →
          Joins ends (· ∈ entries) step.1 edge.other := by
  intro path
  induction path with
  | nil => exact fun valid _ => ⟨_, [], rfl, .refl _, valid, by simp, by simp⟩
  | cons step rest ih =>
    intro goals valid present
    obtain ⟨edge, here⟩ := present step (mem_cons_self ..)
    obtain ⟨middle, entry, result, advances, valid', mem, covered, ends_⟩ :=
      inv.explainEdge valid (mem_of_getElem? here)
    obtain ⟨after, entries, result', advances', valid'', covers, connects⟩ :=
      ih valid' fun other listed => present other (mem_cons_of_mem _ listed)
    refine ⟨after, entry :: entries, ?_, advances.trans advances', valid'', ?_, ?_⟩
    · obtain ⟨prev, idx⟩ := step
      simp only [EufSolver.explainPath, here, result, bind_some, result']
    · intro other listed
      rcases mem_cons.mp listed with rfl | old
      · exact ⟨mem, covered.advance advances'⟩
      · exact covers other old
    · intro other listed otherEdge there
      rcases mem_cons.mp listed with rfl | old
      · obtain rfl : edge = otherEdge := some.inj (here.symm.trans there)
        have crossing : Joins ends (· ∈ entry :: entries) (ends entry).1 (ends entry).2 :=
          .edge (mem_cons_self ..)
        rcases ends_ with forward | backward
        · rw [forward] at crossing
          exact crossing
        · rw [backward] at crossing
          exact crossing.symm
      · exact (connects other old otherEdge there).mono fun _ => mem_cons_of_mem _

theorem Invariant.searchPath (inv : Invariant s merges log) {source target : Nat}
    (lies : source < s.nodes.length) (equal : s.root source = s.root target) :
    ∃ path, s.searchPath s.nodes.length source target = some path ∧
      (∀ step ∈ path, ∃ edge, (s.proofForest.lists step.1)[step.2]? = some edge) ∧
      ∀ related : Nat → Nat → Prop, Equivalence related →
        (∀ step ∈ path, ∀ edge, (s.proofForest.lists step.1)[step.2]? = some edge →
          related step.1 edge.other) → related source target := by
  have bounded : ∀ x, ∀ edge ∈ s.proofForest.lists x, edge.other < s.nodes.length := by
    intro x edge mem
    by_contra outside
    -- The edge has a counterpart in the list of its other end.
    have logged := (inv.edges x edge.other edge.reason).mp ⟨edge.stamp, mem⟩
    obtain ⟨stamp, back⟩ := (inv.edges edge.other x edge.reason).mpr logged.symm
    rw [inv.edgeRange edge.other (by omega)] at back
    cases back
  have connected : ∀ known : Nat → Prop, known source →
      (∀ x, known x → ∀ edge ∈ s.proofForest.lists x, known edge.other) → known target := by
    intro known start along
    have same : known source = known target := by
      refine ((inv.classes source target).mp equal).constant fun entry mem => ?_
      -- Each logged merge has an edge in both directions.
      obtain ⟨stamp, forward⟩ := (inv.edges _ _ _).mpr (.inl mem)
      obtain ⟨stamp', backward⟩ := (inv.edges _ _ _).mpr (.inr mem)
      exact propext ⟨fun known => along _ known _ forward, fun known => along _ known _ backward⟩
    exact same ▸ start
  have fuel : (Search.start source).heap.length + Search.unsettledEdges s.proofForest.lists
      s.nodes.length (Search.start source).settled < s.searchFuel s.nodes.length := by
    have whole : Search.unsettledEdges s.proofForest.lists s.nodes.length [] =
        ((range s.nodes.length).map fun node => (s.proofForest.lists node).length).sum := by
      simp only [Search.unsettledEdges, not_mem_nil, if_false]
      rfl
    show 1 + Search.unsettledEdges s.proofForest.lists s.nodes.length [] < _
    rw [whole, searchFuel]
    omega
  obtain ⟨final, older, found, valid, settled⟩ := Search.run_found bounded connected
    (s.searchFuel s.nodes.length) (Search.Valid.of_start lies)
    (fun x mem => by cases mem) (by simp [Search.start]) fuel
  obtain ⟨present, connects⟩ := @Search.Valid.walk _ _ _ final valid final.settled.length target []
    older settled (by rw [settled]; simp)
  exact ⟨_, by rw [EufSolver.searchPath, found]; rfl, present, connects⟩

theorem Goals.Valid.enqueued_length (valid : goals.Valid s log) :
    goals.enqueued.length ≤ s.nodes.length * s.nodes.length := by
  have included : goals.enqueued.toFinset ⊆
      Finset.range s.nodes.length ×ˢ Finset.range s.nodes.length := by
    intro pair mem
    obtain ⟨left, right⟩ := valid.inside pair (mem_toFinset.mp mem)
    exact Finset.mem_product.mpr ⟨Finset.mem_range.mpr left, Finset.mem_range.mpr right⟩
  have bound := Finset.card_le_card included
  rw [toFinset_card_of_nodup valid.nodup, Finset.card_product, Finset.card_range] at bound
  exact bound

/-- Every enqueued pair is connected by covered merges, or still to be explained. -/
structure Progress (s : EufSolver) (log : List (Nat × Nat × MergeReason)) (goals : Goals)
    (chosen : List (Nat × Nat × MergeReason)) : Prop where
  valid : goals.Valid s log
  covers : ∀ entry ∈ chosen, entry ∈ log ∧ Covered s goals entry
  connects : ∀ pair ∈ goals.enqueued, Joins ends (· ∈ chosen) pair.1 pair.2 ∨
    ∃ goal ∈ goals.todo, orderedPair goal.1 goal.2 = pair

theorem Invariant.explainLoop (inv : Invariant s merges log) :
    ∀ (fuel : Nat) {goals : Goals} {chosen : List (Nat × Nat × MergeReason)},
      Progress s log goals chosen →
      goals.todo.length + (s.nodes.length * s.nodes.length - goals.enqueued.length) < fuel →
      ∃ (final : Goals) (chosen' : List (Nat × Nat × MergeReason)),
        s.explainLoop s.nodes.length fuel goals = some final.reasons ∧
        Progress s log final chosen' ∧ final.todo = [] ∧
        ∀ pair ∈ goals.enqueued, pair ∈ final.enqueued := by
  intro fuel
  induction fuel with
  | zero =>
    intro goals chosen _ enough
    omega
  | succ fuel ih =>
    intro goals chosen progress enough
    rw [EufSolver.explainLoop]
    cases next : goals.todo with
    | nil => exact ⟨goals, chosen, rfl, progress, next, fun _ mem => mem⟩
    | cons goal rest =>
      obtain ⟨source, target⟩ := goal
      have listed : (source, target) ∈ goals.todo := by simp [next]
      have exists_ := progress.valid.exists_ _ listed
      obtain ⟨path, found, present, connects⟩ :=
        inv.searchPath exists_.1 (progress.valid.equal _ listed)
      have popped : ({ goals with todo := rest } : Goals).Valid s log :=
        { progress.valid with
          exists_ := fun goal mem => progress.valid.exists_ goal
            (by rw [next]; exact mem_cons_of_mem _ mem)
          equal := fun goal mem => progress.valid.equal goal
            (by rw [next]; exact mem_cons_of_mem _ mem) }
      obtain ⟨after, entries, result, advances, valid, covers, along⟩ :=
        inv.explainPath path popped present
      have joined : Joins ends (· ∈ entries) source target := connects _ Joins.equivalence along
      have progress' : Progress s log after (entries ++ chosen) := {
        valid := valid
        covers := by
          intro entry mem
          rcases mem_append.mp mem with new | old
          · exact covers entry new
          · obtain ⟨logged, covered⟩ := progress.covers entry old
            exact ⟨logged, @Covered.advance s { goals with todo := rest } after entry advances covered⟩
        connects := by
          intro pair mem
          rcases advances.asked pair mem with old | new
          · rcases progress.connects pair old with connected | ⟨goal, waiting, same⟩
            · exact .inl (connected.mono fun _ => mem_append_right _)
            · rw [next] at waiting
              rcases mem_cons.mp waiting with rfl | later
              · -- This is the goal that has just been explained.
                left
                have whole : Joins ends (· ∈ entries ++ chosen) source target :=
                  joined.mono fun _ => mem_append_left _
                rw [← same]
                unfold orderedPair
                split
                · exact whole
                · exact whole.symm
              · exact .inr ⟨goal, advances.todo goal later, same⟩
          · exact .inr new }
      have enqueued := valid.enqueued_length
      have before := progress.valid.enqueued_length
      have count := advances.count
      rw [next, length_cons] at enough
      obtain ⟨final, chosen', done, progress'', none_, keeps⟩ :=
        ih progress' (by dsimp only at count; omega)
      refine ⟨final, chosen', ?_, progress'', none_, fun pair mem =>
        keeps pair (advances.enqueued pair mem)⟩
      simp only [found, result, bind_some, done]

/-- Reasons that explain an equality: each labels a live merge, and together with the merges under
the reason zero they entail it. -/
structure Explains (s : EufSolver) (merges : List (Nat × Nat × Nat)) (reasons : List Nat)
    (a b : Nat) : Prop where
  live : ∀ term ∈ reasons, term ≠ 0 ∧ ∃ x y, (x, y, term) ∈ merges
  entails : Follows s
    (fun x y => ∃ term, (x, y, term) ∈ merges ∧ (term = 0 ∨ term ∈ reasons)) a b

theorem Supported.asserted {properties : Nat → FunctionProperties} {nodes : List ENode}
    (supported : Supported properties nodes merges log) {x y term : Nat}
    (mem : (x, y, .assertion term) ∈ log) : (x, y, term) ∈ merges := by
  induction log with
  | nil => cases mem
  | cons entry older ih =>
    rcases mem_cons.mp mem with rfl | old
    · exact supported.1
    · exact ih supported.2 old

theorem Progress.explains {chosen : List (Nat × Nat × MergeReason)}
    (inv : Invariant s merges log) (progress : Progress s log goals chosen)
    (done : goals.todo = []) {a b : Nat} (mem : orderedPair a b ∈ goals.enqueued) :
    Explains s merges goals.reasons a b := by
  have joined : ∀ x y, orderedPair x y ∈ goals.enqueued →
      Joins ends (fun entry => entry ∈ chosen ∧ entry ∈ log) x y := by
    intro x y mem
    rcases progress.connects _ mem with connected | ⟨goal, waiting, _⟩
    · have logged := connected.mono fun entry chose => And.intro chose (progress.covers entry chose).1
      unfold orderedPair at logged
      split at logged
      · exact logged
      · exact logged.symm
    · rw [done] at waiting
      cases waiting
  refine ⟨?_, ?_⟩
  · intro term listed
    obtain ⟨nonzero, x, y, logged⟩ := progress.valid.reasons term listed
    exact ⟨nonzero, x, y, inv.supported.asserted logged⟩
  · refine chosen_follows inv.forest inv.supported ?_ ?_ (joined a b mem)
    · intro x y term chose logged
      exact ⟨term, inv.supported.asserted logged, (progress.covers _ chose).2⟩
    · intro x y term1 term2 chose _
      have covered : Applied s.functionProperties s.nodes
        (fun x y => x = y ∨ orderedPair x y ∈ goals.enqueued) term1 term2 :=
          (progress.covers _ chose).2
      refine covered.mono fun u v paired => ?_
      rcases paired with rfl | asked
      · exact .refl _
      · exact joined u v asked

end Nixie.Euf
