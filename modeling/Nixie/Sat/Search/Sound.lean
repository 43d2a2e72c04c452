import Nixie.Sat.Search.FinalCore

/-! The search state keeps to the formula: learning, deletion, decisions and backtracking. -/

namespace Nixie.Sat.Search

open Option

/-- The clause was added by the caller. -/
def Original (s : Solver) (id : Nat) : Prop :=
  ∃ clause, s.clauses[id]? = some clause ∧ clause.learned = false

/-- A clause of the formula is stored, satisfied by a fact, or a tautology. -/
def Covered (s : Solver) (clause : Clause) : Prop :=
  (∃ lit ∈ clause, s.trail.litVal lit = 1 ∧ s.trail.level lit.var = 0) ∨
    (∀ assignment, Satisfies assignment clause) ∨
    ∃ id lits, Original s id ∧ s.liveLits id = some lits ∧ 2 ≤ lits.length ∧ lits ⊆ clause

/-- What the search keeps to: it follows from a formula, and it covers given clauses. -/
structure Sound (formula given : Cnf) (s : Solver) : Prop where
  ready : Ready (Original s) s.trail.propHead s
  justified : Justified s.liveLits s.trail
  factual : Factual formula s.trail
  entailed : ∀ {id lits}, s.liveLits id = some lits → Entails formula lits
  covered : ∀ clause ∈ given, Covered s clause

/-- Assign the first literal of a learned clause if the others are false. -/
def Solver.assertLearnedClause (s : Solver) (lits : Clause) (id : Nat) : Solver :=
  match lits with
  | [] => s
  | asserting :: others =>
      if s.trail.isAssigned asserting.var then s
      else if others = [] then s.force asserting .decision 0
      else if others.all fun lit => s.trail.litVal lit = -1 then
        s.force asserting (.propagation id)
          ((others.map fun lit => s.trail.level lit.var).foldl max 0)
      else s

def StoredClause.learnt (lits : Clause) : StoredClause where
  lits := lits
  learned := true
  deleted := false

/-- Store a learned clause and assert it; a single literal is not watched. -/
def Solver.learnClause (s : Solver) (learnt : Clause) : Solver :=
  (s.storeClause (.learnt learnt)).assertLearnedClause learnt
    s.clauses.length

/-- Whether the reduction of the database may retire a clause. -/
def Solver.removable (s : Solver) (id : Nat) : Bool :=
  match s.clauses[id]? with
  | some clause => clause.learned && !clause.deleted && Decidable.decide (2 < clause.lits.length) &&
      !s.isLiveReasonClause id clause.lits
  | none => false

def Solver.reduceClauseDatabase (s : Solver) (drop : List Nat) : Option Solver :=
  drop.foldlM (fun s id => if s.removable id then some (s.removeClause id) else none) s

def Solver.ensureVars (s : Solver) (lits : List Lit) : Solver :=
  { s with numVars := (lits.map fun lit => lit.var + 1).foldl max s.numVars }

section

theorem le_foldl_max {values : List Nat} : ∀ {start : Nat},
    start ≤ values.foldl max start ∧ ∀ value ∈ values, value ≤ values.foldl max start := by
  induction values with
  | nil => exact fun {start} => ⟨le_rfl, fun _ mem => nomatch mem⟩
  | cons first rest ih =>
    intro start
    obtain ⟨base, bound⟩ := @ih (max start first)
    refine ⟨(le_max_left _ _).trans base, fun value mem => ?_⟩
    rcases List.mem_cons.mp mem with rfl | later
    · exact (le_max_right _ _).trans base
    · exact bound value later

theorem foldl_max_le {values : List Nat} {bound : Nat} : ∀ {start : Nat}, start ≤ bound →
    (∀ value ∈ values, value ≤ bound) → values.foldl max start ≤ bound := by
  induction values with
  | nil => exact fun base _ => base
  | cons first rest ih =>
    intro start base all
    exact ih (max_le base (all first (.head _))) fun value mem => all value (.tail _ mem)

end

section

variable {s t : Solver} {formula given : Cnf}

theorem Ready.track {tracked other : Nat → Prop} {done : Nat} (ready : Ready tracked done s)
    (covers : ∀ id, other id → tracked id ∨ Guarded (· = id) done s) : Ready other done s := by
  refine ⟨ready.trail, ready.attached, ready.vars, ready.head, ready.dequeued, ready.opened,
    fun id tracks => ?_⟩
  rcases covers id tracks with old | guarded
  · exact ready.guarded id old
  · exact guarded id rfl

theorem original_of_flags (flags : t.clauses.map (fun clause => (clause.learned, clause.deleted)) =
    s.clauses.map fun clause => (clause.learned, clause.deleted)) {id : Nat}
    (original : Original s id) : Original t id := by
  obtain ⟨clause, found, kind⟩ := original
  have pair := congrArg (fun list => list[id]?) flags
  simp only [List.getElem?_map, found, map_some] at pair
  obtain ⟨other, found', same⟩ := map_eq_some_iff.mp pair
  exact ⟨other, found', (Prod.mk.inj same).1.trans kind⟩

theorem Covered.mono {clause : Clause} (covered : Covered s clause)
    (facts : ∀ lit, s.trail.litVal lit = 1 → s.trail.level lit.var = 0 →
      t.trail.litVal lit = 1 ∧ t.trail.level lit.var = 0)
    (kept : ∀ id lits, Original s id → s.liveLits id = some lits →
      Original t id ∧ ∃ new, t.liveLits id = some new ∧ lits.Perm new) : Covered t clause := by
  rcases covered with ⟨lit, mem, true_, zero⟩ | tautology | ⟨id, lits, original, live, long, sub⟩
  · exact .inl ⟨lit, mem, facts lit true_ zero⟩
  · exact .inr (.inl tautology)
  · obtain ⟨original', new, live', perm⟩ := kept id lits original live
    refine .inr (.inr ⟨id, new, original', live', perm.length_eq ▸ long, fun lit lies => ?_⟩)
    exact sub (perm.mem_iff.mpr lies)

theorem Covered.assignAt {clause : Clause} (covered : Covered s clause) (inv : s.trail.Inv) {lit : Lit}
    {reason : Reason} {level : Nat} (free : s.trail.isAssigned lit.var = false) :
    Covered { s with trail := s.trail.assignAt lit reason level } clause := by
  refine covered.mono (fun other true_ zero => ?_) fun id lits original live =>
    ⟨original, lits, live, List.Perm.refl _⟩
  obtain ⟨value, apart⟩ := @Trail.Inv.assignAt_value _ inv lit other reason level free (by
    rw [true_]
    decide)
  refine ⟨value.trans true_, ?_⟩
  show (s.trail.assignAt lit reason level).level other.var = 0
  rw [Trail.assignAt_level, if_neg apart]
  exact zero

theorem Sound.progress (sound : Sound formula given s) (progress : Progress s t)
    (ready : Ready (Original s) t.trail.propHead t) : Sound formula given t := by
  have inv := sound.ready.trail
  obtain ⟨-, -, -, same⟩ := progress.steps.keeps inv
  refine ⟨ready.track fun id original => .inl (original_of_flags progress.flags.symm original), ?_,
    progress.steps.factual inv sound.factual, fun live => ?_, fun clause mem => ?_⟩
  · refine (progress.steps.justified inv sound.justified).mono fun _ _ id _ lits live => ?_
    exact progress.rearranged.forward live
  · obtain ⟨old, origin, perm⟩ := progress.rearranged.backward live
    exact (sound.entailed origin).weaken perm.subset
  · refine (sound.covered clause mem).mono (fun lit true_ zero => ?_) fun id lits original live =>
      ⟨original_of_flags progress.flags original, progress.rearranged.forward live⟩
    obtain ⟨value, record⟩ := same lit (by rw [true_]; decide)
    exact ⟨value.trans true_, (congrArg VarInfo.level record).trans zero⟩

theorem Sound.assignAt (sound : Sound formula given s) {lit : Lit} {reason : Reason} {level : Nat}
    (exists_ : lit.var < s.numVars) (free : s.trail.isAssigned lit.var = false)
    (bound : level ≤ s.trail.currentLevel)
    (supported : ∀ id, reason = .propagation id → ∃ lits, s.liveLits id = some lits ∧ lit ∈ lits ∧
      ∀ other ∈ lits, other ≠ lit → s.trail.litVal other = -1 ∧ s.trail.level other.var ≤ level)
    (fact : level = 0 → (∀ id, reason ≠ .propagation id) → Entails formula [lit]) :
    Sound formula given { s with trail := s.trail.assignAt lit reason level } := by
  have inv := sound.ready.trail
  refine ⟨sound.ready.assignAt reason exists_ free bound, sound.justified.assignAt inv free supported,
    sound.factual.assignAt inv free fact, sound.entailed, fun clause mem =>
      (sound.covered clause mem).assignAt inv free⟩

theorem Sound.decide (sound : Sound formula given s)
    (idle : s.trail.propHead = s.trail.assignments.length) {lit : Lit}
    (exists_ : lit.var < s.numVars) (free : s.trail.isAssigned lit.var = false) :
    Sound formula given (s.decide lit) := by
  have opened : Sound formula given { s with trail := s.trail.newDecisionLevel } :=
    ⟨sound.ready.open idle, sound.justified, sound.factual, sound.entailed, sound.covered⟩
  refine opened.assignAt exists_ free le_rfl (fun _ clause => nomatch clause) fun zero => ?_
  exact absurd zero (Nat.succ_ne_zero _)

theorem Sound.backtrack (sound : Sound formula given s) (level : Nat) : Sound formula given (s.backtrack level) := by
  have inv := sound.ready.trail
  rcases Nat.lt_or_ge level s.trail.currentLevel with lower | above
  · have back := sound.ready.backtrack lower
    have head : (s.backtrack level).trail.propHead =
        min s.trail.propHead (s.trail.levelStart (level + 1)) := by
      unfold Solver.backtrack Trail.backtrackTo
      rw [if_neg (Nat.not_le.mpr lower)]
    refine ⟨head ▸ back, sound.justified.backtrackTo inv level, sound.factual.backtrackTo inv level,
      sound.entailed, fun clause mem => ?_⟩
    refine (sound.covered clause mem).mono (fun lit true_ zero => ?_) fun id lits original live =>
      ⟨original, lits, live, List.Perm.refl _⟩
    -- Facts of level zero survive every backtrack.
    have kept : (s.trail.backtrackTo level).litVal lit = 1 := by
      rw [inv.backtrackTo_value lower lit, if_pos (by omega)]
      exact true_
    refine ⟨kept, ?_⟩
    have record := (@Trail.Inv.backtrackTo_record _ inv level lower lit (by
      rw [kept]
      decide)).1
    exact record.trans zero
  · have stays : s.backtrack level = s := by
      unfold Solver.backtrack Trail.backtrackTo
      rw [if_pos above]
    rw [stays]
    exact sound

theorem Ready.ensureVars {tracked : Nat → Prop} {done : Nat} (ready : Ready tracked done s)
    (lits : List Lit) : Ready tracked done (s.ensureVars lits) := by
  have grows : s.numVars ≤ (s.ensureVars lits).numVars := le_foldl_max.1
  have attached := ready.attached
  exact ⟨ready.trail, ⟨attached.distinct, fun live lit mem =>
      (attached.below live lit mem).trans_le grows, attached.watched, attached.implied,
      attached.watcher, attached.edge, attached.once⟩,
    fun lit mem => (ready.vars lit mem).trans_le grows, ready.head, ready.dequeued, ready.opened,
    ready.guarded⟩

theorem Sound.ensureVars (sound : Sound formula given s) (lits : List Lit) :
    Sound formula given (s.ensureVars lits) :=
  ⟨sound.ready.ensureVars lits, sound.justified, sound.factual, sound.entailed, sound.covered⟩

theorem ensureVars_lt {lits : List Lit} {lit : Lit} (mem : lit ∈ lits) :
    lit.var < (s.ensureVars lits).numVars :=
  Nat.lt_of_succ_le ((@le_foldl_max (lits.map fun lit => lit.var + 1) s.numVars).2 _
    (List.mem_map_of_mem mem))

theorem storeClause_clauses (clause : StoredClause) :
    (s.storeClause clause).clauses = s.clauses ++ [clause] := by
  unfold Solver.storeClause Solver.attachWatchers Solver.addEdge Solver.addWatcher
  dsimp only
  split
  · split <;> rfl
  · rfl

theorem Ready.store {tracked : Nat → Prop} {done : Nat} (ready : Ready tracked done s)
    {clause : StoredClause} (alive : clause.deleted = false) (nodup : clause.lits.Nodup)
    (below : ∀ lit ∈ clause.lits, lit.var < s.numVars)
    (before : ∀ id, tracked id → id < s.clauses.length) : Ready tracked done (s.storeClause clause) := by
  obtain ⟨trail, number⟩ := @storeClause_fields s clause
  refine ⟨trail ▸ ready.trail, ready.attached.store alive nodup below, ?_, trail ▸ ready.head,
    trail ▸ ready.dequeued, trail ▸ ready.opened, ?_⟩
  · rw [trail, number]
    exact ready.vars
  · intro id tracks lits found long watch lies false_ early
    rw [liveLits_storeClause, if_neg (Nat.ne_of_lt (before id tracks))] at found
    rw [trail] at false_ early ⊢
    exact ready.guarded id tracks lits found long watch lies false_ early

theorem Original.lt {id : Nat} (original : Original s id) : id < s.clauses.length := by
  obtain ⟨clause, found, -⟩ := original
  exact (List.getElem?_eq_some_iff.mp found).1

theorem original_storeClause {clause : StoredClause} {id : Nat} :
    Original (s.storeClause clause) id ↔
      Original s id ∨ (id = s.clauses.length ∧ clause.learned = false) := by
  unfold Original
  rw [storeClause_clauses]
  constructor
  · rintro ⟨stored, found, kind⟩
    rcases Nat.lt_trichotomy id s.clauses.length with old | new | beyond
    · rw [List.getElem?_append_left old] at found
      exact .inl ⟨stored, found, kind⟩
    · rw [new, List.getElem?_concat_length] at found
      cases found
      exact .inr ⟨new, kind⟩
    · rw [List.getElem?_eq_none (by simp; omega)] at found
      cases found
  · rintro (⟨stored, found, kind⟩ | ⟨rfl, kind⟩)
    · exact ⟨stored, (List.getElem?_append_left (List.getElem?_eq_some_iff.mp found).1).trans found, kind⟩
    · exact ⟨clause, List.getElem?_concat_length, kind⟩

theorem liveLits_store_of_live {clause : StoredClause} {id : Nat} {lits : Clause}
    (found : s.liveLits id = some lits) : (s.storeClause clause).liveLits id = some lits := by
  rw [liveLits_storeClause, if_neg (Nat.ne_of_lt (liveLits_lt found))]
  exact found

theorem Sound.attach (sound : Sound formula given s) {clause : StoredClause}
    (alive : clause.deleted = false) (nodup : clause.lits.Nodup)
    (below : ∀ lit ∈ clause.lits, lit.var < s.numVars) (entails : Entails formula clause.lits) :
    Ready (Original s) s.trail.propHead (s.storeClause clause) ∧
      Justified (s.storeClause clause).liveLits s.trail ∧
      (∀ {id lits}, (s.storeClause clause).liveLits id = some lits → Entails formula lits) ∧
      ∀ other ∈ given, Covered (s.storeClause clause) other := by
  obtain ⟨trail, -⟩ := @storeClause_fields s clause
  refine ⟨sound.ready.store alive nodup below fun _ original => original.lt,
    sound.justified.mono fun _ _ id _ lits found =>
      ⟨lits, liveLits_store_of_live found, List.Perm.refl _⟩, fun found => ?_, fun other mem => ?_⟩
  · rw [liveLits_storeClause, alive] at found
    split at found
    · cases found
      exact entails
    · exact sound.entailed found
  · rcases sound.covered other mem with fact | tautology | ⟨id, lits, first, found, rest⟩
    · exact .inl (trail ▸ fact)
    · exact .inr (.inl tautology)
    · exact .inr (.inr ⟨id, lits, original_storeClause.mpr (.inl first),
        liveLits_store_of_live found, rest⟩)

theorem Sound.store (sound : Sound formula given s) {clause : StoredClause} (alive : clause.deleted = false)
    (nodup : clause.lits.Nodup) (below : ∀ lit ∈ clause.lits, lit.var < s.numVars)
    (entails : Entails formula clause.lits)
    (guarded : clause.learned = false → ∀ watch ∈ clause.lits.take 2,
      s.trail.litVal watch = -1 → ∃ guard ∈ clause.lits, s.trail.litVal guard = 1 ∧
        s.trail.level guard.var = 0) : Sound formula given (s.storeClause clause) := by
  obtain ⟨trail, -⟩ := @storeClause_fields s clause
  obtain ⟨ready, justified, entailed, covered⟩ := sound.attach alive nodup below entails
  rw [← trail] at ready justified
  refine ⟨ready.track fun id original => ?_, justified, trail ▸ sound.factual, entailed, covered⟩
  refine (original_storeClause.mp original).imp_right fun ⟨last, kind⟩ number here lits found long
    watch lies false_ early => ?_
  -- A new original clause is guarded by a fact.
  rw [here, last, liveLits_storeClause, if_pos rfl, alive] at found
  cases found
  rw [trail] at false_ ⊢
  obtain ⟨guard, mem, true_, zero⟩ := guarded kind watch lies false_
  have origin := sound.ready.trail.levelStart (Nat.zero_le _)
  rw [sound.ready.trail.origin] at origin
  refine ⟨guard, mem, true_, ?_⟩
  rw [zero, ← some.inj origin]
  exact Nat.zero_le _

theorem Sound.learn (sound : Sound formula given s) {learnt : Clause} (nodup : learnt.Nodup)
    (below : ∀ lit ∈ learnt, lit.var < s.numVars) (entails : Entails formula learnt) :
    Sound formula given (s.learnClause learnt) := by
  have stored : Sound formula given (s.storeClause (.learnt learnt)) :=
    sound.store rfl nodup below entails fun kind => nomatch kind
  obtain ⟨trail, number⟩ := @storeClause_fields s (.learnt learnt)
  unfold Solver.learnClause Solver.assertLearnedClause
  cases learnt with
  | nil => exact stored
  | cons asserting others =>
    dsimp only
    have exists_ : asserting.var < (s.storeClause
        (.learnt (asserting :: others))).numVars := by
      rw [number]
      exact below asserting (.head _)
    split
    · exact stored
    · rename_i free
      have free_ := Bool.eq_false_iff.mpr free
      split
      · -- A single literal is a fact.
        rename_i single
        subst single
        exact stored.assignAt exists_ free_ (Nat.zero_le _) (fun _ clause => nomatch clause)
          fun _ _ => entails
      · split
        · rename_i false_
          have live : (s.storeClause (.learnt (asserting :: others))).liveLits s.clauses.length = some (asserting :: others) := by
            rw [liveLits_storeClause, if_pos rfl]
            rfl
          have falsified : ∀ other ∈ others, (s.storeClause
              (.learnt (asserting :: others))).trail.litVal other = -1 := fun other mem => by
            simpa using List.all_eq_true.mp false_ other mem
          refine stored.assignAt exists_ free_ (foldl_max_le (Nat.zero_le _) fun value mem => ?_)
            (fun id same => ?_) fun _ noClause => absurd rfl (noClause _)
          · obtain ⟨other, lies, rfl⟩ := List.mem_map.mp mem
            exact stored.ready.trail.level_le (by rw [falsified other lies]; decide)
          · -- The learned clause is the reason.
            cases same
            refine ⟨_, live, .head _, fun other mem apart => ?_⟩
            rcases List.mem_cons.mp mem with same | lies
            · exact absurd same apart
            · exact ⟨falsified other lies, (@le_foldl_max (others.map fun lit =>
                (s.storeClause (.learnt (asserting :: others))).trail.level lit.var) 0).2 _ (List.mem_map_of_mem lies)⟩
        · exact stored

theorem Sound.reduce {drop : List Nat} : ∀ {s t : Solver}, Sound formula given s →
    s.reduceClauseDatabase drop = some t →
      Sound formula given t ∧ t.trail = s.trail ∧ t.numVars = s.numVars := by
  induction drop with
  | nil =>
    intro s t sound done
    cases done
    exact ⟨sound, rfl, rfl⟩
  | cons id rest ih =>
    intro s t sound done
    unfold Solver.reduceClauseDatabase at done
    rw [List.foldlM_cons] at done
    obtain ⟨u, removed, later⟩ := bind_eq_some_iff.mp done
    split at removed
    · rename_i idle
      cases removed
      obtain ⟨trail, number⟩ := @removeClause_fields s id
      -- The clause is long, learned, and no reason.
      obtain ⟨clause, found, learned, alive, long, noReason⟩ : ∃ clause, s.clauses[id]? = some clause ∧
          clause.learned = true ∧ clause.deleted = false ∧ 2 < clause.lits.length ∧
            s.isLiveReasonClause id clause.lits = false := by
        unfold Solver.removable at idle
        cases found : s.clauses[id]? with
        | none =>
          rw [found] at idle
          cases idle
        | some clause =>
          rw [found] at idle
          simp only [Bool.and_eq_true, Bool.not_eq_true', decide_eq_true_eq] at idle
          exact ⟨clause, rfl, idle.1.1.1, idle.1.1.2, idle.1.2, idle.2⟩
      have live : s.liveLits id = some clause.lits := by
        unfold Solver.liveLits
        rw [found]
        simp [alive]
      have kept : ∀ {other lits}, other ≠ id → s.liveLits other = some lits →
          (s.removeClause id).liveLits other = some lits := by
        intro other lits apart found_
        rw [liveLits_removeClause, if_neg apart]
        exact found_
      have original : ∀ other, Original (s.removeClause id) other ↔ Original s other := by
        intro other
        unfold Original Solver.removeClause
        dsimp only
        rw [List.getElem?_modify]
        cases s.clauses[other]? with
        | none => simp
        | some clause => by_cases here : id = other <;> simp [here]
      have ready := sound.ready.remove live long
      have next : Sound formula given (s.removeClause id) := by
        refine ⟨trail ▸ ready.track fun other tracks => .inl ((original other).mp tracks), ?_,
          trail ▸ sound.factual, fun found_ => ?_, fun other mem => ?_⟩
        · rw [trail]
          refine sound.justified.mono fun lit true_ other reason lits found_ => ⟨lits, ?_, List.Perm.refl _⟩
          refine kept (fun same => ?_) found_
          -- A reason clause is live for its literal, so it is not retired.
          obtain ⟨lits', found', mem, -⟩ := sound.justified lit true_ other reason
          rw [same, live] at found'
          cases found'
          have idle_ := List.any_eq_false.mp noReason lit mem
          have assigned : s.trail.isAssigned lit.var = true := by
            by_contra free
            rw [Bool.not_eq_true, sound.ready.trail.unassigned_iff, true_] at free
            cases free
          rw [assigned, reason, same] at idle_
          simp at idle_
        · rw [liveLits_removeClause] at found_
          split at found_
          · cases found_
          · exact sound.entailed found_
        · refine (sound.covered other mem).mono (fun lit true_ zero => by
            rw [trail]
            exact ⟨true_, zero⟩) fun number lits first found_ =>
              ⟨(original number).mpr first, lits, kept (fun same => ?_) found_, List.Perm.refl _⟩
          -- An original clause is not learned.
          obtain ⟨stored, at_, kind⟩ := first
          rw [same, found] at at_
          cases at_
          rw [learned] at kind
          cases kind
      obtain ⟨sound', trail', number'⟩ := ih next later
      exact ⟨sound', trail'.trans trail, number'.trans number⟩
    · cases removed

end

end Nixie.Sat.Search
