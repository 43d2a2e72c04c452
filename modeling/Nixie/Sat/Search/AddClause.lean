import Nixie.Sat.AddClause
import Nixie.Sat.Search.Sound

/-! Adding a clause at level zero: unit clauses become facts, longer ones choose two watches. -/

namespace Nixie.Sat.Search

open List

/-- How good a literal is as a watch: true, then open, then false as late as possible. -/
def watchRank (trail : Trail) (lit : Lit) : Nat :=
  if trail.litVal lit > 0 then trail.currentLevel + 2
  else if trail.litVal lit < 0 then trail.level lit.var
  else trail.currentLevel + 1

/-- Exchange the head with the first literal of the highest rank. -/
def bringBest (rank : Lit → Nat) : List Lit → List Lit
  | [] => []
  | head :: rest =>
      let best := rest.foldl (fun best lit => if rank lit > rank best then lit else best) head
      if best = head then head :: rest else best :: rest.replace best head

def watchOrder (trail : Trail) (lits : List Lit) : List Lit :=
  match bringBest (watchRank trail) lits with
  | [] => []
  | first :: rest => first :: bringBest (watchRank trail) rest

/-- Add a clause at level zero; the flag tells whether the formula may still be satisfiable. -/
def Solver.addClause (s : Solver) (lits : Clause) : Solver × Bool :=
  let s := s.ensureVars lits
  let lits := sortedLits lits
  if tautological lits then (s, true)
  else match lits with
    | [] => (s, false)
    | [lit] =>
        if s.trail.litVal lit < 0 then (s, false)
        else if s.trail.litVal lit > 0 then (s, true)
        else ({ s with trail := s.trail.assign lit .decision }, true)
    | l0 :: l1 :: rest =>
        let lits := l0 :: l1 :: rest
        let ordered := if lits.length = 2 then lits else watchOrder s.trail lits
        let stored := s.storeClause { lits := ordered, learned := false, deleted := false }
        if lits.any fun lit => s.trail.litVal lit = 1 then (stored, true)
        else match lits.filter fun lit => s.trail.litVal lit = 0 with
          | [] => (s, false)
          -- The last open literal is forced at level zero.
          | [forced] => (stored.force forced (.propagation s.clauses.length) 0, true)
          | _ => (stored, true)

section

variable {rank : Lit → Nat}

theorem best_spec {rest : List Lit} : ∀ {head : Lit},
    (rest.foldl (fun best lit => if rank lit > rank best then lit else best) head = head ∨
      rest.foldl (fun best lit => if rank lit > rank best then lit else best) head ∈ rest) ∧
      ∀ lit ∈ head :: rest, rank lit ≤
        rank (rest.foldl (fun best lit => if rank lit > rank best then lit else best) head) := by
  induction rest with
  | nil => exact fun {head} => ⟨.inl rfl, fun lit mem => by rw [mem_singleton.mp mem]; rfl⟩
  | cons next rest ih =>
    intro head
    rw [foldl_cons]
    obtain ⟨found, bound⟩ := @ih (if rank next > rank head then next else head)
    have top := bound _ (.head _)
    refine ⟨?_, fun lit mem => ?_⟩
    · rcases found with same | lies
      · rw [same]
        split
        · exact .inr (.head _)
        · exact .inl rfl
      · exact .inr (.tail _ lies)
    · rcases mem_cons.mp mem with rfl | later
      · refine le_trans ?_ top
        split <;> omega
      · rcases mem_cons.mp later with rfl | behind
        · refine le_trans ?_ top
          split <;> omega
        · exact bound lit (.tail _ behind)

theorem replace_perm {old new : Lit} : ∀ {rest : List Lit}, old ∈ rest →
    (old :: rest.replace old new).Perm (new :: rest) := by
  intro rest
  induction rest with
  | nil => exact fun mem => nomatch mem
  | cons head rest ih =>
    intro mem
    rw [replace_cons]
    by_cases here : old = head
    · subst here
      rw [beq_self_eq_true]
      exact List.Perm.swap _ _ _
    · rw [beq_eq_false_iff_ne.mpr here]
      have lies := (mem_cons.mp mem).resolve_left here
      exact ((List.Perm.swap _ _ _).trans ((ih lies).cons head)).trans (List.Perm.swap _ _ _)

theorem bringBest_spec (lits : List Lit) : (bringBest rank lits).Perm lits ∧
    ∀ first rest, bringBest rank lits = first :: rest → ∀ lit ∈ lits, rank lit ≤ rank first := by
  cases lits with
  | nil => exact ⟨List.Perm.refl _, fun _ _ same => nomatch same⟩
  | cons head rest =>
    obtain ⟨found, bound⟩ := @best_spec rank rest head
    unfold bringBest
    dsimp only
    split
    · rename_i same
      refine ⟨List.Perm.refl _, fun first later equal lit mem => ?_⟩
      cases equal
      rw [same] at bound
      exact bound lit mem
    · rename_i apart
      refine ⟨replace_perm (found.resolve_left apart), fun first later equal lit mem => ?_⟩
      cases equal
      exact bound lit mem

theorem watchOrder_perm (trail : Trail) (lits : List Lit) : (watchOrder trail lits).Perm lits := by
  obtain ⟨perm, -⟩ := @bringBest_spec (watchRank trail) lits
  unfold watchOrder
  split
  · rename_i empty
    rw [empty] at perm
    exact perm
  · rename_i first rest found
    rw [found] at perm
    exact ((@bringBest_spec (watchRank trail) rest).1.cons first).trans perm

theorem watchOrder_open {trail : Trail} (inv : trail.Inv) {lits : List Lit} {first second : Lit}
    (mem : first ∈ lits) (mem' : second ∈ lits) (apart : first ≠ second)
    (open_ : trail.litVal first ≠ -1) (open' : trail.litVal second ≠ -1) :
    ∀ watch ∈ (watchOrder trail lits).take 2, trail.litVal watch ≠ -1 := by
  -- Every other literal outranks a false one.
  have rank : ∀ {lit : Lit}, trail.litVal lit ≠ -1 → trail.currentLevel + 1 ≤ watchRank trail lit := by
    intro lit open_
    rcases inv.value_cases lit with value | value | value <;> simp_all [watchRank]
  have better : ∀ {lit : Lit}, trail.currentLevel + 1 ≤ watchRank trail lit →
      trail.litVal lit ≠ -1 := by
    intro lit high false_
    have level := @Trail.Inv.level_le _ inv lit (by rw [false_]; decide)
    simp [watchRank, false_] at high
    omega
  obtain ⟨perm, best⟩ := @bringBest_spec (watchRank trail) lits
  unfold watchOrder
  cases found : bringBest (watchRank trail) lits with
  | nil =>
    rw [found] at perm
    rw [← perm.mem_iff] at mem
    cases mem
  | cons top rest =>
    have highest := (rank open_).trans (best top rest found first mem)
    obtain ⟨perm', best'⟩ := @bringBest_spec (watchRank trail) rest
    intro watch lies
    dsimp only at lies
    rw [take_succ_cons] at lies
    rcases mem_cons.mp lies with rfl | later
    · exact better highest
    · -- One of the two literals is left for the second place.
      obtain ⟨lit, left, open_⟩ : ∃ lit ∈ rest, trail.litVal lit ≠ -1 := by
        rw [found] at perm
        rcases mem_cons.mp (perm.mem_iff.mpr mem) with same | inside_
        · rcases mem_cons.mp (perm.mem_iff.mpr mem') with same' | inside_
          · exact absurd (same.trans same'.symm) apart
          · exact ⟨second, inside_, open'⟩
        · exact ⟨first, inside_, open_⟩
      cases next : bringBest (watchRank trail) rest with
      | nil =>
        rw [next] at later
        cases later
      | cons second_ others =>
        rw [next, take_succ_cons, take_zero, mem_singleton] at later
        exact later ▸ better ((rank open_).trans (best' second_ others next lit left))

theorem watches_perm (trail : Trail) (lits : List Lit) :
    (if lits.length = 2 then lits else watchOrder trail lits).Perm lits := by
  split
  · exact List.Perm.refl _
  · exact watchOrder_perm _ _

theorem watches_open {trail : Trail} (inv : trail.Inv) {lits : List Lit} {first second : Lit}
    (mem : first ∈ lits) (mem' : second ∈ lits) (apart : first ≠ second)
    (open_ : trail.litVal first ≠ -1) (open' : trail.litVal second ≠ -1) :
    ∀ watch ∈ (if lits.length = 2 then lits else watchOrder trail lits).take 2,
      trail.litVal watch ≠ -1 := by
  split
  · -- A binary clause consists of the two literals.
    rename_i binary
    obtain ⟨left, right, rfl⟩ := length_eq_two.mp binary
    intro watch lies
    simp only [take_succ_cons, take_zero, mem_cons, not_mem_nil, or_false] at mem mem' lies
    rcases mem with rfl | rfl <;> rcases mem' with rfl | rfl <;>
      rcases lies with rfl | rfl <;> simp_all
  · exact watchOrder_open inv mem mem' apart open_ open'

end

section

variable {s t : Solver} {formula given : Cnf} {lits : Clause}

theorem backtrack_ground (s : Solver) : (s.backtrack 0).trail.currentLevel = 0 := by
  unfold Solver.backtrack Trail.backtrackTo
  split
  · rename_i stays
    exact Nat.le_zero.mp stays
  · rfl

theorem two_kept (keep : Lit → Bool) {lits : Clause} (nodup : lits.Nodup)
    (several : 2 ≤ (lits.filter keep).length) : ∃ first ∈ lits, ∃ second ∈ lits,
      first ≠ second ∧ keep first = true ∧ keep second = true := by
  have distinct := nodup.filter keep
  match found : lits.filter keep with
  | [] | [_] =>
    rw [found] at several
    simp at several
  | first :: second :: rest =>
    rw [found] at distinct
    obtain ⟨mem, kept⟩ := mem_filter.mp (found ▸ mem_cons_self : first ∈ lits.filter keep)
    obtain ⟨mem', kept'⟩ :=
      mem_filter.mp (found ▸ mem_cons_of_mem _ mem_cons_self : second ∈ lits.filter keep)
    refine ⟨first, mem, second, mem', fun same => ?_, kept, kept'⟩
    exact (nodup_cons.mp distinct).1 (same ▸ .head _)

theorem Sound.extend (sound : Sound formula given s) (lits : Clause) :
    Sound (formula ++ [lits]) given s :=
  ⟨sound.ready, sound.justified, fun lit true_ zero noClause =>
    (sound.factual lit true_ zero noClause).append _, fun live => (sound.entailed live).append _,
    sound.covered⟩

theorem Sound.cover (sound : Sound formula given s) (covered : Covered s lits) :
    Sound formula (given ++ [lits]) s :=
  ⟨sound.ready, sound.justified, sound.factual, sound.entailed, fun clause mem => by
    rcases mem_append.mp mem with old | last
    · exact sound.covered clause old
    · rw [mem_singleton.mp last]
      exact covered⟩

theorem Sound.refutes (sound : Sound formula given s) (ground : s.trail.currentLevel = 0) {lit : Lit}
    (false_ : s.trail.litVal lit = -1) {m : Assignment}
    (models : Models m formula) : ¬ lit.Holds m := by
  have inv := sound.ready.trail
  have level := @Trail.Inv.level_le _ inv lit (by rw [false_]; decide)
  obtain ⟨other, single, flipped⟩ := ground_entailed inv sound.justified sound.factual sound.entailed
    (inv.false_iff.mp false_) (by rw [Lit.negate_var]; omega) m models
  rw [mem_singleton.mp single, Lit.holds_negate] at flipped
  exact flipped

theorem covered_store {stored : StoredClause} (alive : stored.deleted = false)
    (kind : stored.learned = false) (long : 2 ≤ stored.lits.length) (sub : stored.lits ⊆ lits) :
    Covered (s.storeClause stored) lits := by
  refine .inr (.inr ⟨s.clauses.length, stored.lits, ⟨stored, ?_, kind⟩, ?_, long, sub⟩)
  · rw [storeClause_clauses, getElem?_concat_length]
  · rw [liveLits_storeClause, if_pos rfl, alive]
    rfl

theorem Sound.storeForced (sound : Sound formula given s) {clause : StoredClause} {forced : Lit}
    (alive : clause.deleted = false) (nodup : clause.lits.Nodup)
    (below : ∀ lit ∈ clause.lits, lit.var < s.numVars) (entails : Entails formula clause.lits)
    (mem : forced ∈ clause.lits) (open_ : s.trail.litVal forced = 0)
    (others : ∀ other ∈ clause.lits, other ≠ forced →
      s.trail.litVal other = -1 ∧ s.trail.level other.var = 0) :
    Sound formula given
      ((s.storeClause clause).force forced (.propagation s.clauses.length) 0) := by
  obtain ⟨trail, number⟩ := @storeClause_fields s clause
  obtain ⟨ready, justified, entailed, covered⟩ := sound.attach alive nodup below entails
  have inv := sound.ready.trail
  have free := inv.unassigned_iff.mpr open_
  rw [← trail] at ready justified inv free
  have live : (s.storeClause clause).liveLits s.clauses.length = some clause.lits := by
    rw [liveLits_storeClause, if_pos rfl, alive]
    rfl
  have assigned := ready.assignAt (.propagation s.clauses.length)
    (by rw [number]; exact below forced mem) free (Nat.zero_le _)
  refine ⟨assigned.track fun id original => ?_, justified.assignAt inv free fun id same => ?_,
    (trail ▸ sound.factual).assignAt inv free fun _ noClause => absurd rfl (noClause _), entailed,
    fun other lies => (covered other lies).assignAt inv free⟩
  · -- The forced literal guards the new clause from level zero.
    refine (original_storeClause.mp original).imp_right fun ⟨last, _⟩ number here lits found long
      watch lies false_ early => ⟨forced, ?_, ?_, ?_⟩
    · rw [here, last] at found
      exact Option.some.inj (live.symm.trans found) ▸ mem
    · show ((s.storeClause clause).trail.assignAt forced _ 0).litVal forced = 1
      rw [Trail.assignAt_litVal, if_pos rfl]
    · have origin := assigned.trail.levelStart (Nat.zero_le _)
      rw [assigned.trail.origin] at origin
      have start := Option.some.inj origin
      have ground : ((s.storeClause clause).trail.assignAt forced
          (.propagation s.clauses.length) 0).level forced.var = 0 := by
        rw [Trail.assignAt_level, if_pos rfl]
      show Trail.levelStart _ (((s.storeClause clause).trail.assignAt forced _ 0).level forced.var) ≤ _
      rw [ground, ← start]
      exact Nat.zero_le _
  · cases same
    refine ⟨clause.lits, live, mem, fun other lies apart => ?_⟩
    rw [trail]
    exact ⟨(others other lies apart).1, (others other lies apart).2.le⟩

theorem Sound.addClause {flag : Bool} (sound : Sound formula formula s)
    (ground : s.trail.currentLevel = 0) (done : s.addClause lits = (t, flag)) :
    t.trail.currentLevel = 0 ∧ (flag = true → Sound (formula ++ [lits]) (formula ++ [lits]) t) ∧
      (flag = false → ¬ Satisfiable (formula ++ [lits])) := by
  have wide : Sound (formula ++ [lits]) formula (s.ensureVars lits) := (sound.ensureVars lits).extend lits
  have inv := wide.ready.trail
  have ground' : (s.ensureVars lits).trail.currentLevel = 0 := ground
  have models : ∀ {m}, Models m (formula ++ [lits]) →
      Satisfies m (sortedLits lits) := fun models =>
    satisfies_sortedLits.mpr (models lits (mem_append_right _ (.head _)))
  have nodup : (sortedLits lits).Nodup := nodup_dedup _
  have below : ∀ lit ∈ sortedLits lits, lit.var < (s.ensureVars lits).numVars :=
    fun lit mem => ensureVars_lt (mem_sortedLits.mp mem)
  have sub : sortedLits lits ⊆ lits := fun lit mem => mem_sortedLits.mp mem
  unfold Solver.addClause at done
  dsimp only at done
  generalize s.ensureVars lits = grown at *
  have zero : ∀ {lit}, grown.trail.litVal lit ≠ 0 → grown.trail.level lit.var = 0 := fun defined => by
    have level := inv.level_le defined
    omega
  split at done
  · -- A tautology adds nothing.
    rename_i tautology
    cases done
    exact ⟨ground', fun _ => wide.cover (.inr (.inl fun m =>
      satisfies_sortedLits.mp (tautological_holds tautology))), fun absent => (nomatch absent)⟩
  · split at done
    · -- The empty clause.
      rename_i empty
      cases done
      refine ⟨ground', fun absent => (nomatch absent), fun _ ⟨m, all⟩ => ?_⟩
      have holds := models all
      rw [empty] at holds
      exact satisfies_nil holds
    · rename_i lit single
      have entails : Entails (formula ++ [lits]) [lit] := fun m all => single ▸ models all
      have mem : lit ∈ lits := sub (by rw [single]; exact .head _)
      split at done
      · -- A unit clause against a fact.
        rename_i negative
        cases done
        refine ⟨ground', fun absent => (nomatch absent), fun _ ⟨m, all⟩ => ?_⟩
        have false_ : t.trail.litVal lit = -1 := by
          rcases inv.value_cases lit with value | value | value <;> rw [value] at negative ⊢ <;>
            simp at negative
        obtain ⟨other, lies, holds⟩ := entails m all
        exact wide.refutes ground' false_ all (mem_singleton.mp lies ▸ holds)
      · rename_i notFalse
        split at done
        · rename_i pos
          cases done
          have true_ : t.trail.litVal lit = 1 := by
            rcases inv.value_cases lit with value | value | value <;> rw [value] at pos ⊢ <;>
              simp at pos
          exact ⟨ground', fun _ => wide.cover (.inl ⟨lit, mem, true_, zero (by
            rw [true_]
            decide)⟩), fun absent => (nomatch absent)⟩
        · -- A new fact.
          rename_i notTrue
          cases done
          have fresh : grown.trail.litVal lit = 0 := by
            rcases inv.value_cases lit with value | value | value
            · rw [value] at notTrue
              exact absurd (by decide) notTrue
            · rw [value] at notFalse
              exact absurd (by decide) notFalse
            · exact value
          have assigned := @Sound.assignAt _ _ _ wide lit .decision grown.trail.currentLevel (below lit (by rw [single]; exact .head _)) (inv.unassigned_iff.mpr fresh) le_rfl
            (fun _ clause => nomatch clause) fun _ _ => entails
          refine ⟨ground', fun _ => assigned.cover (.inl ⟨lit, mem, ?_, ?_⟩),
            fun absent => (nomatch absent)⟩
          · show (grown.trail.assignAt lit .decision _).litVal lit = 1
            rw [Trail.assignAt_litVal, if_pos rfl]
          · show (grown.trail.assignAt lit .decision _).level lit.var = 0
            rw [Trail.assignAt_level, if_pos rfl]
            exact ground'
    · rename_i l0 l1 rest many
      rw [← many] at done
      have entails : Entails (formula ++ [lits]) (sortedLits lits) := fun m all => models all
      have long : 2 ≤ (sortedLits lits).length := by
        rw [many]
        simp
      have perm := watches_perm grown.trail (sortedLits lits)
      have order : ∀ first second, first ∈ sortedLits lits → second ∈ sortedLits lits →
          first ≠ second → grown.trail.litVal first = 0 → grown.trail.litVal second = 0 →
          ∀ watch ∈ (if (sortedLits lits).length = 2 then sortedLits lits
            else watchOrder grown.trail (sortedLits lits)).take 2, grown.trail.litVal watch ≠ -1 :=
        fun first second mem mem' apart open_ open' => watches_open inv mem mem' apart
          (by rw [open_]; decide) (by rw [open']; decide)
      generalize ordered : (if (sortedLits lits).length = 2 then sortedLits lits else
        watchOrder grown.trail (sortedLits lits)) = stored at done perm order
      have facts := fun guarded => @Sound.store _ _ _ wide
        { lits := stored, learned := false, deleted := false } rfl (perm.nodup_iff.mpr nodup)
        (fun lit mem => below lit (perm.mem_iff.mp mem)) (entails.weaken perm.symm.subset) guarded
      have cover : Covered (grown.storeClause
          { lits := stored, learned := false, deleted := false }) lits :=
        covered_store rfl rfl (by rw [perm.length_eq]; exact long)
          fun lit mem => sub (perm.mem_iff.mp mem)
      have trail := (@storeClause_fields grown
        { lits := stored, learned := false, deleted := false }).1
      split at done
      · -- A fact satisfies the clause.
        rename_i satisfied
        cases done
        obtain ⟨guard, mem, true_⟩ := any_eq_true.mp satisfied
        have true' : grown.trail.litVal guard = 1 := by simpa using true_
        refine ⟨trail ▸ ground', fun _ => (facts fun _ _ _ _ => ⟨guard, perm.mem_iff.mpr mem, true',
          zero ?_⟩).cover cover, fun absent => (nomatch absent)⟩
        rw [true']
        decide
      · rename_i unsatisfied
        have notTrue : ∀ lit ∈ sortedLits lits, grown.trail.litVal lit ≠ 1 :=
          fun lit mem true_ => unsatisfied (any_eq_true.mpr ⟨lit, mem, by simpa using true_⟩)
        have open_ : ∀ lit ∈ sortedLits lits, grown.trail.litVal lit = 0 ∨
            grown.trail.litVal lit = -1 := fun lit mem => by
          rcases inv.value_cases lit with value | value | value
          · exact absurd value (notTrue lit mem)
          · exact .inr value
          · exact .inl value
        split at done
        · -- Every literal is false at level zero.
          rename_i none_
          cases done
          refine ⟨ground', fun absent => (nomatch absent), fun _ ⟨m, all⟩ => ?_⟩
          obtain ⟨lit, mem, holds⟩ := entails m all
          rcases open_ lit mem with undefined | false_
          · have lies : lit ∈ (sortedLits lits).filter fun lit => t.trail.litVal lit = 0 :=
              mem_filter.mpr ⟨mem, by simpa using undefined⟩
            rw [none_] at lies
            cases lies
          · exact wide.refutes ground' false_ all holds
        · -- The last open literal is forced.
          rename_i forced single
          cases done
          have only : ∀ lit, lit ∈ sortedLits lits ∧ grown.trail.litVal lit = 0 ↔
              lit = forced := fun lit => by
            have mem := @mem_filter _ (fun lit => Decidable.decide
              (grown.trail.litVal lit = 0)) (sortedLits lits) lit
            rw [single, mem_singleton, decide_eq_true_iff] at mem
            exact mem.symm
          obtain ⟨mem, undefined⟩ := (only forced).mpr rfl
          have kept := @Sound.storeForced _ _ _ wide
            { lits := stored, learned := false, deleted := false } forced rfl
            (perm.nodup_iff.mpr nodup) (fun lit lies => below lit (perm.mem_iff.mp lies))
            (entails.weaken perm.symm.subset) (perm.mem_iff.mpr mem) undefined
            fun other lies apart => by
              rcases open_ other (perm.mem_iff.mp lies) with undefined | false_
              · exact absurd ((only other).mp ⟨perm.mem_iff.mp lies, undefined⟩) apart
              · exact ⟨false_, zero (by rw [false_]; decide)⟩
          refine ⟨?_, fun _ => kept.cover ?_, fun absent => (nomatch absent)⟩
          · show (grown.storeClause _).trail.currentLevel = 0
            rw [trail]
            exact ground'
          · exact cover.assignAt (trail ▸ inv) (by
              rw [trail]
              exact inv.unassigned_iff.mpr undefined)
        · -- Two literals are open, so the watches are.
          rename_i several notNone notSingle
          cases done
          obtain ⟨first, mem, second, mem', apart, open₁, open₂⟩ :=
            two_kept (fun lit => grown.trail.litVal lit = 0) nodup (by
              match found : (sortedLits lits).filter fun lit => grown.trail.litVal lit = 0 with
              | [] => exact (notNone found).elim
              | [forced] => exact (notSingle forced found).elim
              | _ :: _ :: _ => simp)
          refine ⟨trail ▸ ground', fun _ => (facts fun _ watch lies false_ => ?_).cover cover,
            fun absent => (nomatch absent)⟩
          exact absurd false_ (order first second mem mem' apart (by simpa using open₁)
            (by simpa using open₂) watch lies)

end

end Nixie.Sat.Search
