import Nixie.Sat.Search.Visit

/-! One literal is propagated: its implications and its watch list are scanned to the end. -/

namespace Nixie.Sat.Search

open List Function

section

variable {s : Solver} {lit : Lit} {kept rest : List Watcher} {watcher : Watcher}

@[simp] theorem withList_withList (first second : List Watcher) :
    (s.withList lit first).withList lit second = s.withList lit second := by
  unfold Solver.withList
  dsimp only
  rw [update_idem]

theorem withList_self (s : Solver) (lit : Lit) : s.withList lit (s.watches lit) = s := by
  unfold Solver.withList
  rw [update_eq_self]

theorem Attached.reblock (attached : Attached (s.withList lit (kept ++ watcher :: rest)))
    {blocker : Lit} (lies : ∀ lits, s.liveLits watcher.clause = some lits → blocker ∈ lits) :
    Attached (s.withList lit (kept ++ { watcher with blocker := blocker } :: rest)) := by
  have list : (s.withList lit (kept ++ watcher :: rest)).watches lit = kept ++ watcher :: rest :=
    update_self _ _ _
  rw [← withList_withList (kept ++ watcher :: rest)]
  refine attached.replaceList ?_ (fun new mem => ?_) fun old mem lits _ => ?_
  · have once := attached.once lit
    rw [list] at once
    simpa using once
  · rw [list]
    rcases mem_append.mp mem with early | late
    · refine ⟨new, mem_append_left _ early, rfl, fun {lits} live => ?_⟩
      exact ((attached.watcher new (by rw [list]; exact mem_append_left _ early)).2 lits
        live).2.2
    · rcases mem_cons.mp late with rfl | later
      · exact ⟨watcher, mem_append_right _ (.head _), rfl, fun {lits} live => lies lits live⟩
      · refine ⟨new, mem_append_right _ (.tail _ later), rfl, fun {lits} live => ?_⟩
        exact ((attached.watcher new (by
          rw [list]
          exact mem_append_right _ (.tail _ later))).2 lits live).2.2
  · rw [list] at mem
    rcases mem_append.mp mem with early | late
    · exact ⟨old, mem_append_left _ early, rfl⟩
    · rcases mem_cons.mp late with rfl | later
      · exact ⟨{ old with blocker := blocker }, mem_append_right _ (.head _), rfl⟩
      · exact ⟨old, mem_append_right _ (.tail _ later), rfl⟩

theorem Attached.dropDead (attached : Attached (s.withList lit (kept ++ watcher :: rest)))
    (dead : s.liveLits watcher.clause = none) : Attached (s.withList lit (kept ++ rest)) := by
  have list : (s.withList lit (kept ++ watcher :: rest)).watches lit = kept ++ watcher :: rest :=
    update_self _ _ _
  rw [← withList_withList (kept ++ watcher :: rest)]
  have sub : (kept ++ rest).Sublist (kept ++ watcher :: rest) :=
    List.Sublist.append_left (sublist_cons_self _ _) _
  refine attached.replaceList ?_ (fun new mem => ?_) fun old mem lits live => ?_
  · have once := attached.once lit
    rw [list] at once
    exact once.sublist (sub.map Watcher.clause)
  · have member_ : new ∈ (s.withList lit (kept ++ watcher :: rest)).watches lit := by
      rw [list]
      exact sub.subset mem
    exact ⟨new, member_, rfl, fun {lits} live => ((attached.watcher new member_).2 lits live).2.2⟩
  · rw [list] at mem
    rcases mem_append.mp mem with early | late
    · exact ⟨old, mem_append_left _ early, rfl⟩
    · rcases mem_cons.mp late with rfl | later
      · rw [withList_liveLits, dead] at live
        cases live
      · exact ⟨old, mem_append_right _ later, rfl⟩

theorem Advance.withWatches {t : Solver} (advance : Advance s t)
    (watches : Lit → List Watcher) : Advance s { t with watches := watches } :=
  { advance with }

end

/-- What a visit of a watcher of a true literal comes to. -/
def Visits (lit : Lit) (kept rest : List Watcher) (s : Solver) (result : Solver × Solver.Visited) :
    Prop :=
  Advance s result.1 ∧ result.1.watches lit = [] ∧
    match result.2 with
    | .kept watcher => Settled result.1 watcher.clause ∧
        Attached (result.1.withList lit (kept ++ watcher :: rest))
    | .dropped => Attached (result.1.withList lit (kept ++ rest))
    | .conflict watcher => Falsified result.1 watcher.clause ∧
        Attached (result.1.withList lit (kept ++ watcher :: rest))

section

variable {s : Solver} {lit : Lit} {kept rest : List Watcher} {watcher : Watcher}

theorem replaceWatch_visits {first : Lit} {tail : Clause}
    (attached : Attached (s.withList lit (kept ++ watcher :: rest))) (own : s.watches lit = [])
    (inv : s.trail.Inv) (true_ : s.trail.litVal lit = 1)
    (live : s.liveLits watcher.clause = some (first :: lit.negate :: tail)) :
    Visits lit kept rest s (s.replaceWatch watcher first lit.negate tail) := by
  have false_ : s.trail.litVal lit.negate = -1 := by
    rw [inv.false_iff, Lit.negate_negate]
    exact true_
  -- Any literal of the clause may become the blocker.
  have blocker : ∀ other ∈ first :: lit.negate :: tail, ∀ lits,
      s.liveLits watcher.clause = some lits → other ∈ lits := by
    intro other mem lits found
    rw [live] at found
    exact Option.some.inj found ▸ mem
  unfold Solver.replaceWatch
  split
  · -- The other watch is true.
    rename_i pos
    have satisfied : s.trail.litVal first = 1 := by
      rcases inv.value_cases first with value | value | value <;> rw [value] at pos ⊢ <;>
        simp at pos
    exact ⟨.refl s, own, fun lits found => ⟨first, blocker first (.head _) lits found, satisfied⟩,
      attached.reblock (blocker first (.head _))⟩
  · rename_i negative
    have notTrue : s.trail.litVal first ≠ 1 := by
      intro value
      rw [value] at negative
      exact negative (by decide)
    split
    · -- A literal behind the watches is not false.
      rename_i replacement back suffix
      have whole := @takeWhile_append_dropWhile _ (fun lit => decide (s.trail.litVal lit < 0)) tail
      rw [suffix] at whole
      have mem : replacement ∈ first :: lit.negate :: tail := by
        rw [← whole]
        simp
      have open_ : ¬ s.trail.litVal replacement < 0 := by
        have stop := head?_dropWhile_not (fun lit => decide (s.trail.litVal lit < 0)) tail
        rw [suffix] at stop
        simpa using stop
      split
      · rename_i pos
        have satisfied : s.trail.litVal replacement = 1 := by
          rcases inv.value_cases replacement with value | value | value <;>
            rw [value] at pos ⊢ <;> simp at pos
        exact ⟨.refl s, own,
          fun lits found => ⟨replacement, blocker replacement mem lits found, satisfied⟩,
          attached.reblock (blocker replacement mem)⟩
      · -- The watch moves to the open literal.
        rename_i unsatisfied
        dsimp only
        generalize tail.takeWhile (fun lit => decide (s.trail.litVal lit < 0)) = front at whole
        subst whole
        have perm : (first :: lit.negate :: (front ++ replacement :: back)).Perm
            (first :: replacement :: (front ++ lit.negate :: back)) := by
          refine List.Perm.cons _ ?_
          exact (List.Perm.cons _ perm_middle).trans
            ((List.Perm.swap _ _ _).trans (List.Perm.cons _ perm_middle.symm))
        have advance := advance_setLits live perm (fun other watch => by
          simp only [take_succ_cons, take_zero, mem_cons, not_mem_nil, or_false] at watch
          rcases watch with rfl | rfl
          · exact .inl (.head _)
          · exact .inr fun value => open_ (by rw [value]; decide))
        have elsewhere : replacement.negate ≠ lit := by
          intro same
          rw [← same, Lit.negate_negate] at false_
          exact open_ (by rw [false_]; decide)
        refine ⟨advance.withWatches _, ?_, ?_⟩
        · unfold Solver.addWatcher
          dsimp only
          rw [update_of_ne elsewhere.symm]
          exact own
        · -- The two list updates commute, since they are about different literals.
          have list : (s.withList lit (kept ++ watcher :: rest)).watches lit.negate.negate =
              kept ++ watcher :: rest := by
            rw [Lit.negate_negate]
            exact update_self _ _ _
          have moved := attached.move live list rfl
          rw [Lit.negate_negate, withList_withList] at moved
          have same : ((s.withList lit (kept ++ rest)).setLits watcher.clause
              (first :: replacement :: (front ++ lit.negate :: back))).addWatcher replacement.negate
                { watcher with blocker := first } =
              ((s.setLits watcher.clause (first :: replacement :: (front ++ lit.negate :: back))).addWatcher
                replacement.negate { watcher with blocker := first }).withList lit (kept ++ rest) := by
            unfold Solver.addWatcher Solver.withList Solver.setLits
            dsimp only
            rw [update_of_ne elsewhere, update_comm elsewhere]
          rw [← same]
          exact moved
    · -- Every literal behind the watches is false.
      rename_i all
      have others : ∀ other ∈ tail, s.trail.litVal other = -1 := by
        intro other mem
        have below := dropWhile_eq_nil_iff.mp all other mem
        rw [decide_eq_true_eq] at below
        rcases inv.value_cases other with value | value | value <;> rw [value] at below ⊢ <;>
          simp at below
      split
      · rename_i below
        have falsified : s.trail.litVal first = -1 := by
          rcases inv.value_cases first with value | value | value <;> rw [value] at below ⊢ <;>
            simp at below
        refine ⟨.refl s, own, ⟨_, live, fun other mem => ?_⟩, attached.reblock (blocker first (.head _))⟩
        rcases mem_cons.mp mem with rfl | later
        · exact falsified
        · rcases mem_cons.mp later with rfl | behind
          · exact false_
          · exact others other behind
      · -- The other watch is the only literal that is left.
        rename_i notFalse
        have fresh : s.trail.litVal first = 0 := by
          rcases inv.value_cases first with value | value | value
          · exact absurd value notTrue
          · rw [value] at notFalse
            exact absurd (by decide) notFalse
          · exact value
        have advance := advance_unit inv live (.head _) fresh (fun other mem apart => by
          rcases mem_cons.mp mem with rfl | later
          · exact absurd rfl apart
          · rcases mem_cons.mp later with rfl | behind
            · exact false_
            · exact others other behind)
        refine ⟨advance, own, fun lits found => ⟨first, blocker first (.head _) lits found, ?_⟩,
          (attached.reblock (blocker first (.head _))).withTrail _⟩
        unfold Trail.assign
        dsimp only
        rw [Trail.assignAt_litVal, if_pos rfl]

theorem visit_visits (attached : Attached (s.withList lit (kept ++ watcher :: rest)))
    (own : s.watches lit = []) (inv : s.trail.Inv) (true_ : s.trail.litVal lit = 1) :
    Visits lit kept rest s (s.visit lit watcher) := by
  have listed : watcher ∈ (s.withList lit (kept ++ watcher :: rest)).watches lit := by
    unfold Solver.withList
    dsimp only
    rw [update_self]
    exact mem_append_right _ (.head _)
  have valid := (attached.watcher watcher listed).2
  unfold Solver.visit
  split
  · -- The blocker is true.
    rename_i pos
    have satisfied : s.trail.litVal watcher.blocker = 1 := by
      rcases inv.value_cases watcher.blocker with value | value | value <;>
        rw [value] at pos ⊢ <;> simp at pos
    exact ⟨.refl s, own, fun lits live => ⟨watcher.blocker, (valid lits live).2.2, satisfied⟩, attached⟩
  · split
    · rename_i l0 l1 tail live
      obtain ⟨long, watch, -⟩ := valid _ live
      have nodup := attached.distinct live
      simp only [take_succ_cons, take_zero, mem_cons, not_mem_nil, or_false] at watch
      -- Position one holds the false literal afterwards.
      have swapped : (if l0 = lit.negate then l0 else l1) = lit.negate := by
        split
        · assumption
        · rename_i apart
          rcases watch with same | same
          · exact absurd same.symm apart
          · exact same.symm
      dsimp only
      rw [swapped]
      generalize firstEq : (if l0 = lit.negate then l1 else l0) = first
      have pair : (l0 = first ∧ l1 = lit.negate) ∨ (l0 = lit.negate ∧ l1 = first) := by
        by_cases here : l0 = lit.negate
        · rw [if_pos here] at firstEq
          exact .inr ⟨here, firstEq⟩
        · rw [if_neg here] at firstEq swapped
          exact .inl ⟨firstEq, swapped⟩
      have perm : (l0 :: l1 :: tail).Perm (first :: lit.negate :: tail) := by
        rcases pair with ⟨rfl, rfl⟩ | ⟨rfl, rfl⟩
        · exact List.Perm.refl _
        · exact List.Perm.swap _ _ _
      have watches : ∀ other, other ∈ (first :: lit.negate :: tail).take 2 ↔
          other ∈ (l0 :: l1 :: tail).take 2 := by
        intro other
        simp only [take_succ_cons, take_zero, mem_cons, not_mem_nil, or_false]
        rcases pair with ⟨rfl, rfl⟩ | ⟨rfl, rfl⟩
        · exact Iff.rfl
        · exact or_comm
      have advance := advance_setLits live perm fun other mem => .inl ((watches other).mp mem)
      have attached' : Attached ((s.setLits watcher.clause (first :: lit.negate :: tail)).withList lit
          (kept ++ watcher :: rest)) := attached.reorder live long perm.symm watches
      have live' : (s.setLits watcher.clause (first :: lit.negate :: tail)).liveLits watcher.clause =
          some (first :: lit.negate :: tail) := by
        rw [liveLits_setLits, if_pos rfl, live]
        rfl
      obtain ⟨later, own', result⟩ := replaceWatch_visits attached' own inv true_ live'
      exact ⟨advance.trans later inv, own', result⟩
    · -- The clause is retired.
      rename_i short
      have dead : s.liveLits watcher.clause = none := by
        cases live : s.liveLits watcher.clause with
        | none => rfl
        | some lits =>
          obtain ⟨long, -, -⟩ := valid _ live
          match lits with
          | [] | [_] => simp at long
          | l0 :: l1 :: tail => exact absurd live (short l0 l1 tail)
      exact ⟨.refl s, own, attached.dropDead dead⟩

end

section

variable {lit : Lit}

theorem Advance.keepsTrue {s t : Solver} (advance : Advance s t) (inv : s.trail.Inv)
    (true_ : s.trail.litVal lit = 1) : t.trail.litVal lit = 1 :=
  ((advance.steps.keeps inv).2.2.2 lit (by rw [true_]; decide)).1.trans true_

theorem scanWatches_spec : ∀ {rest kept : List Watcher} {s : Solver},
    Attached (s.withList lit (kept ++ rest)) → s.watches lit = [] → s.trail.Inv →
      s.trail.litVal lit = 1 → (∀ watcher ∈ kept, Settled s watcher.clause) →
        ∀ {t list conflict}, Solver.scanWatches lit s kept rest = (t, list, conflict) →
          Advance s t ∧ Attached (t.withList lit list) ∧
            (conflict = none → ∀ watcher ∈ list, Settled t watcher.clause) ∧
            ∀ id, conflict = some id → Falsified t id := by
  intro rest
  induction rest with
  | nil =>
    intro kept s attached own inv true_ settled t list conflict result
    rw [Solver.scanWatches] at result
    obtain ⟨rfl, rfl, rfl⟩ : s = t ∧ kept = list ∧ none = conflict := by simpa using result
    rw [append_nil] at attached
    exact ⟨.refl s, attached, fun _ => settled, fun _ found => nomatch found⟩
  | cons watcher rest ih =>
    intro kept s attached own inv true_ settled t list conflict result
    obtain ⟨advance, own', outcome⟩ := visit_visits attached own inv true_
    rw [Solver.scanWatches] at result
    cases visited : s.visit lit watcher with
    | mk u verdict =>
      rw [visited] at result advance own' outcome
      dsimp only at advance own'
      have inv' := advance.steps.inv inv
      have settled' : ∀ old ∈ kept, Settled u old.clause := fun old mem =>
        (settled old mem).advance inv advance
      -- The rest is scanned from the state after the visit.
      cases verdict with
      | kept new =>
        obtain ⟨fine, attached'⟩ := outcome
        rw [← singleton_append, ← append_assoc] at attached'
        obtain ⟨later, rest_⟩ := ih attached' own' inv' (advance.keepsTrue inv true_) (by
          intro old mem
          rcases mem_append.mp mem with early | last
          · exact settled' old early
          · rw [mem_singleton.mp last]
            exact fine) result
        exact ⟨advance.trans later inv, rest_⟩
      | dropped =>
        obtain ⟨later, rest_⟩ := ih outcome own' inv' (advance.keepsTrue inv true_) settled' result
        exact ⟨advance.trans later inv, rest_⟩
      | conflict new =>
        obtain ⟨falsified, attached'⟩ := outcome
        obtain ⟨rfl, rfl, rfl⟩ : u = t ∧ kept ++ new :: rest = list ∧ some new.clause = conflict := by
          simpa using result
        refine ⟨advance, attached', fun absent => (nomatch absent), fun id found => ?_⟩
        cases found
        exact falsified

theorem scanEdges_spec : ∀ {edges : List (Lit × Nat)} {s : Solver}, Attached s →
    (∀ edge ∈ edges, edge ∈ s.binaryGraph lit) → s.trail.Inv → s.trail.litVal lit = 1 →
      ∀ {t conflict}, s.scanEdges edges = (t, conflict) →
        Advance s t ∧ Attached t ∧ t.watches = s.watches ∧
          (conflict = none → ∀ edge ∈ edges, t.trail.litVal edge.1 = 1) ∧
          ∀ id, conflict = some id → Falsified t id := by
  intro edges
  induction edges with
  | nil =>
    intro s attached _ inv true_ t conflict result
    rw [Solver.scanEdges] at result
    obtain ⟨rfl, rfl⟩ := Prod.mk.inj result
    exact ⟨.refl s, attached, rfl, fun _ _ mem => (nomatch mem), fun _ found => nomatch found⟩
  | cons edge rest ih =>
    intro s attached known inv true_ t conflict result
    obtain ⟨implied, id⟩ := edge
    have false_ : s.trail.litVal lit.negate = -1 := by
      rw [inv.false_iff, Lit.negate_negate]
      exact true_
    obtain ⟨lits, live, pair⟩ := attached.edge (known _ (.head _))
    have mem : ∀ other, other ∈ lits ↔ other = lit.negate ∨ other = implied := by
      intro other
      rw [pair.mem_iff]
      simp
    rw [Solver.scanEdges] at result
    split at result
    · -- The implied literal is false, like the other one.
      rename_i below
      obtain ⟨rfl, rfl⟩ := Prod.mk.inj result
      have falsified : s.trail.litVal implied = -1 := by
        rcases inv.value_cases implied with value | value | value <;> rw [value] at below ⊢ <;>
          simp at below
      refine ⟨.refl s, attached, rfl, fun absent => (nomatch absent), fun other found => ?_⟩
      cases found
      refine ⟨lits, live, fun other lies => ?_⟩
      rcases (mem other).mp lies with rfl | rfl
      · exact false_
      · exact falsified
    · rename_i notFalse
      split at result
      · -- The implied literal is assigned.
        rename_i fresh
        have advance := advance_unit inv live ((mem implied).mpr (.inr rfl)) fresh
          (fun other lies apart => by
            rcases (mem other).mp lies with rfl | same
            · exact false_
            · exact absurd same apart)
        have inv' := advance.steps.inv inv
        obtain ⟨later, attached', watches, implied_, conflict_⟩ := ih (attached.withTrail (s.trail.assign implied (.propagation id)))
          (fun edge lies => known edge (.tail _ lies)) inv' (advance.keepsTrue inv true_) result
        refine ⟨advance.trans later inv, attached', watches, fun none_ edge lies => ?_, conflict_⟩
        rcases mem_cons.mp lies with rfl | behind
        · refine later.keepsTrue inv' ?_
          unfold Trail.assign
          dsimp only
          rw [Trail.assignAt_litVal, if_pos rfl]
        · exact implied_ none_ edge behind
      · rename_i defined
        have satisfied : s.trail.litVal implied = 1 := by
          rcases inv.value_cases implied with value | value | value
          · exact value
          · rw [value] at notFalse
            exact absurd (by decide) notFalse
          · exact absurd value defined
        obtain ⟨later, attached', watches, implied_, conflict_⟩ := ih attached
          (fun edge lies => known edge (.tail _ lies)) inv true_ result
        refine ⟨later, attached', watches, fun none_ edge lies => ?_, conflict_⟩
        rcases mem_cons.mp lies with rfl | behind
        · exact later.keepsTrue inv satisfied
        · exact implied_ none_ edge behind

theorem propagateLit_spec {s t : Solver} {conflict : Option Nat} (attached : Attached s)
    (inv : s.trail.Inv) (true_ : s.trail.litVal lit = 1)
    (result : s.propagateLit lit = (t, conflict)) :
    (conflict = none ∧ Advance s t ∧ Attached t ∧ ∀ id lits, t.liveLits id = some lits →
        2 ≤ lits.length → lit.negate ∈ lits.take 2 → ∃ guard ∈ lits, t.trail.litVal guard = 1) ∨
      ∃ id u, conflict = some id ∧ t = u.requeue ∧ Advance s u ∧ Attached u ∧ Falsified u id := by
  unfold Solver.propagateLit at result
  cases edges : s.scanEdges (s.binaryGraph lit) with
  | mk u binary =>
    obtain ⟨first, attached', watches, implied, falsified⟩ :=
      scanEdges_spec attached (fun _ lies => lies) inv true_ edges
    rw [edges] at result
    have inv' := first.steps.inv inv
    cases binary with
    | some id =>
      obtain ⟨rfl, rfl⟩ := Prod.mk.inj result
      exact .inr ⟨id, u, rfl, rfl, first, attached', falsified id rfl⟩
    | none =>
      dsimp only at result
      cases scanned : Solver.scanWatches lit (u.withList lit []) [] (u.watches lit) with
      | mk v rest =>
        obtain ⟨list, long⟩ := rest
        have start : Attached ((u.withList lit []).withList lit ([] ++ u.watches lit)) := by
          rw [withList_withList, nil_append, withList_self]
          exact attached'
        obtain ⟨second, attached'', settled, falsified'⟩ := scanWatches_spec start
          (update_self _ _ _) inv' (first.keepsTrue inv true_) (fun _ mem => nomatch mem)
          scanned
        have advance : Advance s (v.withList lit list) :=
          (first.trans (Advance.trans ((Advance.refl u).withWatches _) second inv') inv).withWatches _
        rw [scanned] at result
        cases long with
        | some id =>
          obtain ⟨rfl, rfl⟩ := Prod.mk.inj result
          exact .inr ⟨id, _, rfl, rfl, advance, attached'', falsified' id rfl⟩
        | none =>
          obtain ⟨rfl, rfl⟩ := Prod.mk.inj result
          refine .inl ⟨rfl, advance, attached'', fun id lits live size watch => ?_⟩
          rcases Nat.lt_or_ge 2 lits.length with long | short
          · -- A long clause has a watcher on the scanned list.
            obtain ⟨watcher, lies, same⟩ := attached''.watched live long lit.negate watch
            rw [Lit.negate_negate] at lies
            unfold Solver.withList at lies
            dsimp only at lies
            rw [update_self] at lies
            exact settled rfl watcher lies lits (same ▸ live)
          · -- A binary clause has an implication, which was followed.
            have binary : lits.length = 2 := by omega
            obtain ⟨l0, l1, rfl⟩ := length_eq_two.mp binary
            have nodup := attached''.distinct live
            have mem : lit.negate ∈ [l0, l1] := watch
            obtain ⟨other, lies, apart⟩ : ∃ other ∈ [l0, l1], other ≠ lit.negate := by
              simp only [mem_cons, not_mem_nil, or_false] at mem
              rcases mem with rfl | rfl
              · exact ⟨l1, by simp, fun same => by simp [same] at nodup⟩
              · exact ⟨l0, by simp, fun same => by simp [same] at nodup⟩
            have edge := attached''.implied live binary lit.negate mem other lies apart
            rw [Lit.negate_negate, advance.graph] at edge
            refine ⟨other, lies, ?_⟩
            exact second.keepsTrue inv' (implied rfl _ edge)

end

end Nixie.Sat.Search
