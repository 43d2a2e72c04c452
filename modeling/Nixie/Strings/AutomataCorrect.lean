import Mathlib.Data.Finset.Powerset
import Mathlib.Data.Finset.Prod
import Nixie.Strings.Automata

/-! What numbering the states that are reached keeps of the words accepted. -/

namespace Nixie.Strings

open List

namespace Construction

variable {κ : Type} [DecidableEq κ] {final : κ → Bool} {next : κ → Char → Option κ}

/-- Every key has its position as a number. -/
def Numbered (keys : List κ) (map : AList (fun _ : κ => StateId)) : Prop :=
  ∀ key id, map.lookup key = some id ↔ keys[id]? = some key

theorem Numbered.insert {keys : List κ} {map : AList (fun _ : κ => StateId)} {key : κ}
    (numbered : Numbered keys map) (new : map.lookup key = none) :
    Numbered (keys ++ [key]) (map.insert key keys.length) := by
  intro other id
  by_cases same : other = key
  · subst same
    rw [AList.lookup_insert]
    constructor
    · intro eq
      cases eq
      exact getElem?_concat_length
    · intro found
      -- The key was at no earlier position.
      rcases Nat.lt_or_ge id keys.length with earlier | later
      · rw [getElem?_append_left earlier, ← numbered, new] at found
        cases found
      · have last := (List.getElem?_eq_some_iff.mp found).1
        rw [length_append, length_singleton] at last
        exact congrArg some (Nat.le_antisymm later (Nat.le_of_lt_succ last))
  · rw [AList.lookup_insert_ne same, numbered]
    constructor
    · intro found
      rw [List.getElem?_append_left (List.getElem?_eq_some_iff.mp found).1]
      exact found
    · intro found
      rcases Nat.lt_or_ge id keys.length with earlier | later
      · rwa [getElem?_append_left earlier] at found
      · rw [getElem?_append_right later] at found
        exact absurd (mem_singleton.mp (mem_of_getElem? found)) same

theorem Numbered.eq {keys : List κ} {map : AList (fun _ : κ => StateId)} {key : κ} {i j : StateId}
    (numbered : Numbered keys map) (first : keys[i]? = some key) (second : keys[j]? = some key) :
    i = j := by
  rw [← numbered] at first second
  exact Option.some.inj (first.symm.trans second)

/-- States are the positions of keys, and the transitions done so far follow the keys. -/
structure Explored (final : κ → Bool) (next : κ → Char → Option κ) (done : StateId → Char → Prop)
    (keys : List κ) (s : Construction κ) : Prop where
  ids : Numbered keys s.stateMap
  count : s.dfa.numStates = keys.length
  initial : s.dfa.initial = 0
  accepting : ∀ id, id ∈ s.dfa.accepting ↔ ∃ key, keys[id]? = some key ∧ final key = true
  noDefault : s.dfa.defaultTrans = ∅
  sound : ∀ i c j, s.dfa.transitions.lookup (i, c) = some j →
    done i c ∧ ∃ key key', keys[i]? = some key ∧ next key c = some key' ∧ keys[j]? = some key'
  complete : ∀ i c key key', done i c → keys[i]? = some key → next key c = some key' →
    (s.dfa.transitions.lookup (i, c)).isSome
  done_lt : ∀ i c, done i c → i < keys.length

variable {done done' : StateId → Char → Prop} {keys : List κ} {s : Construction κ} {key : κ}

omit [DecidableEq κ] in
theorem accepting_append {accepting : Finset StateId}
    (before : ∀ id, id ∈ accepting ↔ ∃ key, keys[id]? = some key ∧ final key = true) (key : κ)
    (id : StateId) :
    id ∈ (if final key then insert keys.length accepting else accepting) ↔
      ∃ k, (keys ++ [key])[id]? = some k ∧ final k = true := by
  rcases Nat.lt_trichotomy id keys.length with earlier | rfl | later
  · rw [getElem?_append_left earlier, ← before]
    split
    · exact Finset.mem_insert.trans (or_iff_right earlier.ne)
    · exact Iff.rfl
  · have outside : keys.length ∉ accepting := by
      rw [before, getElem?_eq_none (Nat.le_refl _)]
      exact fun ⟨_, found, _⟩ => nomatch found
    rw [getElem?_concat_length]
    split
    · rename_i isFinal
      exact iff_of_true (Finset.mem_insert_self _ _) ⟨key, rfl, isFinal⟩
    · rename_i notFinal
      refine iff_of_false outside ?_
      rintro ⟨_, eq, isFinal⟩
      cases eq
      exact notFinal isFinal
  · have outside : (keys ++ [key])[id]? = none := by
      rw [getElem?_eq_none]
      rw [length_append]
      exact later
    rw [outside]
    refine iff_of_false ?_ fun ⟨_, found, _⟩ => nomatch found
    have notBefore : id ∉ accepting := by
      rw [before, getElem?_eq_none later.le]
      exact fun ⟨_, found, _⟩ => nomatch found
    split
    · exact fun mem => (Finset.mem_insert.mp mem).elim later.ne' notBefore
    · exact notBefore

theorem explored_start (initial : κ) :
    Explored final next (fun _ _ => False) [initial] (start final initial) where
  ids := @Numbered.insert _ _ [] ∅ _ (fun _ _ => iff_of_false nofun nofun) rfl
  count := rfl
  initial := rfl
  accepting := @accepting_append _ _ [] ∅
    (fun _ => iff_of_false (Finset.notMem_empty _) fun ⟨_, found, _⟩ => nomatch found) initial
  noDefault := rfl
  sound := fun _ _ _ found => nomatch found
  complete := fun _ _ _ _ done => done.elim
  done_lt := fun _ _ done => done.elim

theorem Explored.findOrAdd (explored : Explored final next done keys s) (key : κ) :
    ∃ new, Explored final next done (keys ++ new) (s.findOrAdd final key).1 ∧
      (s.findOrAdd final key).1.worklist = s.worklist ++ new ∧
      (keys ++ new)[(s.findOrAdd final key).2]? = some key ∧ ∀ k ∈ new, k = key := by
  rw [Construction.findOrAdd]
  split
  · rename_i id found
    refine ⟨[], ?_, (append_nil _).symm, ?_, fun _ mem => absurd mem not_mem_nil⟩
    · rw [append_nil]
      exact explored
    · rw [append_nil]
      exact (explored.ids key id).mp found
  · rename_i new
    have kept {i : StateId} {k : κ} (found : keys[i]? = some k) : (keys ++ [key])[i]? = some k := by
      rw [List.getElem?_append_left (List.getElem?_eq_some_iff.mp found).1]
      exact found
    refine ⟨[key], ?_, rfl, ?_, fun _ => mem_singleton.mp⟩
    · exact {
        ids := by
          rw [explored.count]
          exact explored.ids.insert new
        count := by rw [length_append, explored.count]; rfl
        initial := explored.initial
        accepting := by
          rw [explored.count]
          exact accepting_append explored.accepting key
        noDefault := explored.noDefault
        sound := by
          intro i c j found
          obtain ⟨isDone, k, k', first, step, second⟩ := explored.sound i c j found
          exact ⟨isDone, k, k', kept first, step, kept second⟩
        complete := by
          intro i c k k' isDone found step
          rw [getElem?_append_left (explored.done_lt i c isDone)] at found
          exact explored.complete i c k k' isDone found step
        done_lt := by
          intro i c isDone
          rw [length_append]
          exact Nat.lt_add_right _ (explored.done_lt i c isDone) }
    · rw [explored.count]
      exact getElem?_concat_length

theorem Explored.visitChar (explored : Explored final next done keys s) {current : κ} {i : StateId}
    (found : keys[i]? = some current) (c : Char) :
    ∃ new, Explored final next (fun j d => done j d ∨ (j = i ∧ d = c)) (keys ++ new)
        (visitChar final next current i s c) ∧
      (visitChar final next current i s c).worklist = s.worklist ++ new ∧
      ∀ k ∈ new, next current c = some k := by
  have within := (List.getElem?_eq_some_iff.mp found).1
  rw [Construction.visitChar]
  split
  · rename_i stuck
    refine ⟨[], ?_, (append_nil _).symm, fun _ mem => absurd mem not_mem_nil⟩
    rw [append_nil]
    exact { explored with
      sound := by
        intro j d target looked
        obtain ⟨isDone, rest⟩ := explored.sound j d target looked
        exact ⟨.inl isDone, rest⟩
      complete := by
        intro j d k k' isDone foundKey step
        rcases isDone with before | ⟨rfl, rfl⟩
        · exact explored.complete j d k k' before foundKey step
        · -- Without a next key there is no transition to look for.
          rw [found] at foundKey
          cases foundKey
          rw [stuck] at step
          cases step
      done_lt := by
        intro j d isDone
        rcases isDone with before | ⟨rfl, -⟩
        · exact explored.done_lt j d before
        · exact within }
  · rename_i key step
    obtain ⟨new, added, worklist, position, only⟩ := explored.findOrAdd key
    refine ⟨new, ?_, worklist, fun k mem => (only k mem).symm ▸ step⟩
    have foundLater : (keys ++ new)[i]? = some current := by
      rw [getElem?_append_left within]
      exact found
    exact {
      ids := added.ids
      count := added.count
      initial := added.initial
      accepting := added.accepting
      noDefault := added.noDefault
      sound := by
        intro j d target looked
        by_cases same : (j, d) = (i, c)
        · obtain ⟨rfl, rfl⟩ := Prod.mk.inj same
          dsimp only [Dfa.addTransition] at looked
          rw [AList.lookup_insert] at looked
          cases looked
          exact ⟨.inr ⟨rfl, rfl⟩, current, key, foundLater, step, position⟩
        · dsimp only [Dfa.addTransition] at looked
          rw [AList.lookup_insert_ne same] at looked
          obtain ⟨isDone, rest⟩ := added.sound j d target looked
          exact ⟨.inl isDone, rest⟩
      complete := by
        intro j d k k' isDone foundKey stepKey
        dsimp only [Dfa.addTransition]
        by_cases same : (j, d) = (i, c)
        · rw [same, AList.lookup_insert]
          rfl
        · rw [AList.lookup_insert_ne same]
          have before : done j d := isDone.resolve_right fun eq => same (Prod.ext eq.1 eq.2)
          exact added.complete j d k k' before foundKey stepKey
      done_lt := by
        intro j d isDone
        rcases isDone with before | ⟨rfl, -⟩
        · exact added.done_lt j d before
        · exact (List.getElem?_eq_some_iff.mp foundLater).1 }

theorem Explored.visitChars (explored : Explored final next done keys s) {current : κ}
    {i : StateId} (found : keys[i]? = some current) (alphabet : List Char) :
    ∃ new, Explored final next (fun j d => done j d ∨ (j = i ∧ d ∈ alphabet)) (keys ++ new)
        (alphabet.foldl (Construction.visitChar final next current i) s) ∧
      (alphabet.foldl (Construction.visitChar final next current i) s).worklist =
        s.worklist ++ new ∧
      ∀ k ∈ new, ∃ c, next current c = some k := by
  induction alphabet generalizing s keys done with
  | nil =>
    refine ⟨[], ?_, (append_nil _).symm, fun _ mem => absurd mem not_mem_nil⟩
    have same : (fun j d => done j d ∨ (j = i ∧ d ∈ ([] : List Char))) = done := by
      ext j d
      exact or_iff_left fun impossible => not_mem_nil impossible.2
    rw [append_nil, same]
    exact explored
  | cons c alphabet ih =>
    obtain ⟨new, visited, worklist, reached⟩ := explored.visitChar found c
    have foundLater : (keys ++ new)[i]? = some current := by
      rw [List.getElem?_append_left (List.getElem?_eq_some_iff.mp found).1]
      exact found
    obtain ⟨more, rest, worklistRest, reachedRest⟩ := ih visited foundLater
    refine ⟨new ++ more, ?_, ?_, fun k mem => ?_⟩
    · have same : (fun j d => (done j d ∨ (j = i ∧ d = c)) ∨ (j = i ∧ d ∈ alphabet)) =
          fun j d => done j d ∨ (j = i ∧ d ∈ c :: alphabet) := by
        ext j d
        rw [mem_cons, and_or_left, or_assoc]
      rw [← append_assoc, ← same]
      exact rest
    · rw [foldl_cons, worklistRest, worklist, append_assoc]
    · rcases mem_append.mp mem with first | later
      · exact ⟨c, reached k first⟩
      · exact reachedRest k later

/-- The words that lead from a key to a final one. -/
def acceptsKey (final : κ → Bool) (next : κ → Char → Option κ) (key : κ) : List Char → Bool
  | [] => final key
  | c :: cs =>
    match next key c with
    | some key' => acceptsKey final next key' cs
    | none => false

theorem Explored.acceptsFrom_iff {alphabet : List Char}
    (explored : Explored final next (fun i c => i < keys.length ∧ c ∈ alphabet) keys s)
    {i : StateId} (found : keys[i]? = some key) (cs : List Char) :
    s.dfa.acceptsFrom i cs = true ↔
      (∀ c ∈ cs, c ∈ alphabet) ∧ acceptsKey final next key cs = true := by
  induction cs generalizing i key with
  | nil =>
    rw [Dfa.acceptsFrom, acceptsKey, decide_eq_true_iff, explored.accepting, found]
    constructor
    · rintro ⟨_, eq, isFinal⟩
      cases eq
      exact ⟨fun _ mem => absurd mem not_mem_nil, isFinal⟩
    · exact fun ⟨_, isFinal⟩ => ⟨key, rfl, isFinal⟩
  | cons c cs ih =>
    have noDefault (map : AList fun _ : StateId × Char => StateId) :
        (map.lookup (i, c)).or (s.dfa.defaultTrans.lookup i) = map.lookup (i, c) := by
      rw [explored.noDefault, AList.lookup_empty, Option.or_none]
    rw [Dfa.acceptsFrom, Dfa.nextState, noDefault, acceptsKey, forall_mem_cons]
    cases looked : s.dfa.transitions.lookup (i, c) with
    | none =>
      refine iff_of_false Bool.false_ne_true ?_
      rintro ⟨⟨lies, -⟩, accepted⟩
      cases step : next key c with
      | none =>
        rw [step] at accepted
        cases accepted
      | some key' =>
        -- The transition of a character that was visited is there.
        have present := explored.complete i c key key'
          ⟨(List.getElem?_eq_some_iff.mp found).1, lies⟩ found step
        rw [looked] at present
        cases present
    | some j =>
      obtain ⟨⟨-, lies⟩, k, k', foundKey, step, target⟩ := explored.sound i c j looked
      rw [found] at foundKey
      cases foundKey
      rw [step]
      dsimp only
      rw [ih target, and_iff_right lies]

theorem run_nil {alphabet : List Char} {turns : Nat} (work : s.worklist = []) :
    run final next alphabet turns s = some s.dfa := by
  unfold run
  rw [work]

theorem run_cons {alphabet : List Char} {turns : Nat} {current : κ} {worklist : List κ}
    (work : s.worklist = current :: worklist) :
    run final next alphabet (turns + 1) s = run final next alphabet turns (alphabet.foldl
        (Construction.visitChar final next current ((s.stateMap.lookup current).getD 0))
        { s with worklist }) := by
  rw [run.eq_def]
  simp only [work]

theorem Explored.run_spec {alphabet : List Char} {universe_ : Finset κ}
    (closed : ∀ key ∈ universe_, ∀ c key', next key c = some key' → key' ∈ universe_)
    {processed : List κ}
    (explored : Explored final next (fun i c => i < processed.length ∧ c ∈ alphabet)
      (processed ++ s.worklist) s)
    (lies : ∀ key ∈ processed ++ s.worklist, key ∈ universe_) {turns : Nat}
    (enough : universe_.card ≤ processed.length + turns) :
    ∃ keys s', run final next alphabet turns s = some s'.dfa ∧
      Explored final next (fun i c => i < keys.length ∧ c ∈ alphabet) keys s' ∧
      processed ++ s.worklist <+: keys ∧ ∀ key ∈ keys, key ∈ universe_ := by
  induction turns generalizing s processed with
  | zero =>
    cases work : s.worklist with
    | nil =>
      rw [work, append_nil] at explored lies
      refine ⟨processed, s, run_nil work, explored, ?_, lies⟩
      rw [append_nil]
    | cons current worklist =>
      -- Different keys of the universe are no more than it has.
      rw [work] at explored lies
      have nodup : (processed ++ current :: worklist).Nodup := by
        rw [nodup_iff_getElem?_ne_getElem?]
        intro i j less within same
        have found : (processed ++ current :: worklist)[j]? =
            some (processed ++ current :: worklist)[j] := getElem?_eq_getElem within
        exact less.ne (explored.ids.eq (same.trans found) found)
      have bound := Finset.card_le_card
        (s := (processed ++ current :: worklist).toFinset) (t := universe_)
        fun key mem => lies key (mem_toFinset.mp mem)
      rw [toFinset_card_of_nodup nodup, length_append, length_cons] at bound
      omega
  | succ turns ih =>
    cases work : s.worklist with
    | nil =>
      rw [work, append_nil] at explored lies
      refine ⟨processed, s, run_nil work, explored, ?_, lies⟩
      rw [append_nil]
    | cons current worklist =>
      rw [work] at explored lies
      have found : (processed ++ current :: worklist)[processed.length]? = some current := by
        rw [getElem?_append_right (Nat.le_refl _), Nat.sub_self]
        rfl
      have number : (s.stateMap.lookup current).getD 0 = processed.length := by
        rw [(explored.ids current _).mpr found]
        rfl
      have popped : Explored final next (fun i c => i < processed.length ∧ c ∈ alphabet)
          (processed ++ current :: worklist) { s with worklist } := { explored with }
      obtain ⟨new, visited, worklistVisited, reached⟩ := popped.visitChars found alphabet
      rw [run_cons work, number]
      -- The key is processed, and what it leads to is at the end of the queue.
      have keysVisited : processed ++ current :: worklist ++ new =
          (processed ++ [current]) ++ (alphabet.foldl
            (Construction.visitChar final next current processed.length)
            { s with worklist }).worklist := by
        rw [worklistVisited]
        simp only [append_assoc, cons_append, nil_append]
      have doneVisited : (fun j d => (j < processed.length ∧ d ∈ alphabet) ∨
          (j = processed.length ∧ d ∈ alphabet)) =
          fun j d => j < (processed ++ [current]).length ∧ d ∈ alphabet := by
        ext j d
        rw [← or_and_right, length_append, length_singleton, Nat.lt_succ_iff_lt_or_eq]
      rw [keysVisited, doneVisited] at visited
      obtain ⟨keys, s', ran, exact_, prefix_, within⟩ := ih visited (by
          rw [← keysVisited]
          intro key mem
          rcases mem_append.mp mem with old | added
          · exact lies key old
          · obtain ⟨c, step⟩ := reached key added
            have current_inside : current ∈ universe_ :=
              lies current (mem_append_right _ mem_cons_self)
            exact closed current current_inside c key step)
        (by
          rw [length_append, length_singleton]
          omega)
      refine ⟨keys, s', ran, exact_, ?_, within⟩
      rw [← keysVisited] at prefix_
      exact (prefix_append _ _).trans prefix_

theorem exists_run (final : κ → Bool) {initial : κ} (alphabet : List Char) {universe_ : Finset κ}
    (closed : ∀ key ∈ universe_, ∀ c key', next key c = some key' → key' ∈ universe_)
    (lies : initial ∈ universe_) {turns : Nat} (enough : universe_.card ≤ turns) :
    ∃ dfa, run final next alphabet turns (start final initial) = some dfa ∧
      (∀ cs, dfa.acceptsFrom dfa.initial cs = true ↔
        (∀ c ∈ cs, c ∈ alphabet) ∧ acceptsKey final next initial cs = true) ∧
      ∀ id ∈ dfa.accepting, ∃ key ∈ universe_, final key = true := by
  have explored : Explored final next (fun i c => i < ([] : List κ).length ∧ c ∈ alphabet)
      ([] ++ (start final initial).worklist) (start final initial) := by
    have none_done : (fun i c => i < ([] : List κ).length ∧ c ∈ alphabet) = fun _ _ => False := by
      ext i c
      exact iff_of_false (fun done => Nat.not_lt_zero _ done.1) not_false
    rw [none_done]
    exact explored_start initial
  have enough' : universe_.card ≤ ([] : List κ).length + turns := enough.trans (Nat.le_add_left _ _)
  obtain ⟨keys, s, ran, all, prefix_, within⟩ := explored.run_spec closed
    (fun key mem => (mem_singleton.mp mem).symm ▸ lies) enough'
  refine ⟨s.dfa, ran, fun cs => ?_, fun id mem => ?_⟩
  swap
  · obtain ⟨key, found, isFinal⟩ := (all.accepting id).mp mem
    exact ⟨key, within key (mem_of_getElem? found), isFinal⟩
  rw [all.initial]
  refine all.acceptsFrom_iff ?_ cs
  obtain ⟨rest, rfl⟩ := prefix_
  rfl

end Construction

namespace Nfa

variable {self : Nfa}

end Nfa

namespace ProductAutomaton

theorem nextState_mem_targets {dfa : Dfa} {state target : StateId} {c : Char}
    (step : dfa.nextState state c = some target) : target ∈ dfa.targets := by
  refine Finset.mem_insert_of_mem (mem_toFinset.mpr ?_)
  rw [Dfa.nextState, Option.or_eq_some_iff] at step
  rcases step with own | ⟨-, default⟩
  · exact mem_append_left _ (mem_map_of_mem (AList.mem_lookup_iff.mp own))
  · exact mem_append_right _ (mem_map_of_mem (AList.mem_lookup_iff.mp default))

theorem nextPair_eq_some {dfa1 dfa2 : Dfa} {states next : StateId × StateId} {c : Char} :
    nextPair dfa1 dfa2 states c = some next ↔
      dfa1.nextState states.1 c = some next.1 ∧ dfa2.nextState states.2 c = some next.2 := by
  rw [nextPair]
  split
  · rename_i n1 n2 first second
    rw [first, second, Option.some_inj, Option.some_inj, Option.some_inj, Prod.ext_iff]
  · rename_i stuck
    refine iff_of_false nofun fun ⟨first, second⟩ => ?_
    exact stuck _ _ first second

theorem acceptsKey_pair (dfa1 dfa2 : Dfa) (states : StateId × StateId) (cs : List Char) :
    Construction.acceptsKey (finalPair dfa1 dfa2) (nextPair dfa1 dfa2) states cs = true ↔
      dfa1.acceptsFrom states.1 cs = true ∧ dfa2.acceptsFrom states.2 cs = true := by
  induction cs generalizing states with
  | nil => exact Bool.and_eq_true_iff
  | cons c cs ih =>
    rw [Construction.acceptsKey, Dfa.acceptsFrom, Dfa.acceptsFrom]
    cases first : dfa1.nextState states.1 c with
    | none =>
      rw [nextPair, first]
      exact iff_of_false Bool.false_ne_true fun both => Bool.false_ne_true both.1
    | some n1 =>
      cases second : dfa2.nextState states.2 c with
      | none =>
        rw [nextPair, first, second]
        exact iff_of_false Bool.false_ne_true fun both => Bool.false_ne_true both.2
      | some n2 =>
        have step : nextPair dfa1 dfa2 states c = some (n1, n2) :=
          nextPair_eq_some.mpr ⟨first, second⟩
        rw [step]
        exact ih (n1, n2)

theorem exists_intersection (order : HashOrder) (dfa1 dfa2 : Dfa) :
    ∃ product, intersection order dfa1 dfa2 = some product ∧
      ∀ s, product.accepts s = true ↔ (∀ c ∈ s.toList, c ∈ alphabet dfa1 dfa2) ∧
        dfa1.accepts s = true ∧ dfa2.accepts s = true := by
  have closed : ∀ key ∈ dfa1.targets ×ˢ dfa2.targets, ∀ c key',
      nextPair dfa1 dfa2 key c = some key' → key' ∈ dfa1.targets ×ˢ dfa2.targets := by
    intro key _ c key' step
    obtain ⟨first, second⟩ := nextPair_eq_some.mp step
    exact Finset.mem_product.mpr ⟨nextState_mem_targets first, nextState_mem_targets second⟩
  have lies : (dfa1.initial, dfa2.initial) ∈ dfa1.targets ×ˢ dfa2.targets :=
    Finset.mem_product.mpr ⟨Finset.mem_insert_self _ _, Finset.mem_insert_self _ _⟩
  obtain ⟨dfa, built, accepts, -⟩ := Construction.exists_run (finalPair dfa1 dfa2)
    (order.elements (alphabet dfa1 dfa2)) closed lies (Finset.card_product _ _).le
  refine ⟨⟨dfa1, dfa2, dfa⟩, ?_, fun s => ?_⟩
  · rw [intersection, built]
    rfl
  · have letters (c : Char) : c ∈ order.elements (alphabet dfa1 dfa2) ↔ c ∈ alphabet dfa1 dfa2 := by
      rw [HashOrder.elements, (order.perm _).mem_iff, Finset.mem_sort]
    rw [ProductAutomaton.accepts, Dfa.accepts, accepts, acceptsKey_pair, Dfa.accepts, Dfa.accepts]
    simp only [letters]

theorem not_accepts_of_isEmpty {product : ProductAutomaton} (empty : product.isEmpty = true)
    (s : String) : product.accepts s = false := by
  have none_accepted : product.product.accepting = ∅ := of_decide_eq_true empty
  have fails (cs : List Char) (state : StateId) : product.product.acceptsFrom state cs = false := by
    induction cs generalizing state with
    | nil => exact decide_eq_false (none_accepted ▸ Finset.notMem_empty state)
    | cons c cs ih =>
      rw [Dfa.acceptsFrom]
      split
      · exact ih _
      · rfl
  exact fails s.toList _

/-- The product of two automata is empty only where they share no string over the letters with a
transition, and is not empty only where they share some string. -/
theorem intersection_isEmpty (order : HashOrder) (dfa1 dfa2 : Dfa) :
    ∃ product, intersection order dfa1 dfa2 = some product ∧
      (product.isEmpty = true → ∀ s : String, (∀ c ∈ s.toList, c ∈ alphabet dfa1 dfa2) →
        ¬(dfa1.accepts s = true ∧ dfa2.accepts s = true)) ∧
      (product.isEmpty = false → ∃ s, dfa1.accepts s = true ∧ dfa2.accepts s = true) := by
  classical
  obtain ⟨product, built, accepts⟩ := exists_intersection order dfa1 dfa2
  refine ⟨product, built, fun empty s named both => ?_, fun some_ => ?_⟩
  · have accepted := (accepts s).mpr ⟨named, both⟩
    rw [not_accepts_of_isEmpty empty s] at accepted
    cases accepted
  -- Only pairs that some word leads to are found.
  let word (key : StateId × StateId) (w : List Char) : Prop := ∀ v,
    Construction.acceptsKey (finalPair dfa1 dfa2) (nextPair dfa1 dfa2)
        (dfa1.initial, dfa2.initial) (w ++ v) =
      Construction.acceptsKey (finalPair dfa1 dfa2) (nextPair dfa1 dfa2) key v
  have closed : ∀ key ∈ (dfa1.targets ×ˢ dfa2.targets).filter (∃ w, word · w), ∀ c key',
      nextPair dfa1 dfa2 key c = some key' →
        key' ∈ (dfa1.targets ×ˢ dfa2.targets).filter (∃ w, word · w) := by
    intro key mem c key' step
    obtain ⟨first, second⟩ := nextPair_eq_some.mp step
    obtain ⟨w, leads⟩ := (Finset.mem_filter.mp mem).2
    refine Finset.mem_filter.mpr ⟨Finset.mem_product.mpr ⟨nextState_mem_targets first,
      nextState_mem_targets second⟩, w ++ [c], fun v => ?_⟩
    rw [append_assoc, leads]
    show Construction.acceptsKey _ _ key (c :: v) = _
    rw [Construction.acceptsKey, step]
  obtain ⟨dfa, ran, -, reached⟩ := Construction.exists_run (finalPair dfa1 dfa2)
    (order.elements (alphabet dfa1 dfa2)) closed
    (Finset.mem_filter.mpr ⟨Finset.mem_product.mpr ⟨Finset.mem_insert_self _ _,
      Finset.mem_insert_self _ _⟩, [], fun _ => rfl⟩)
    ((Finset.card_filter_le _ _).trans (Finset.card_product _ _).le)
  rw [intersection, ran] at built
  cases built
  obtain ⟨id, accepting⟩ := Finset.nonempty_of_ne_empty (of_decide_eq_false some_)
  obtain ⟨key, mem, isFinal⟩ := reached id accepting
  obtain ⟨w, leads⟩ := (Finset.mem_filter.mp mem).2
  have both := (acceptsKey_pair dfa1 dfa2 _ (w ++ [])).mp ((leads []).trans isFinal)
  refine ⟨String.ofList (w ++ []), ?_⟩
  simpa only [Dfa.accepts, String.toList_ofList] using both

end ProductAutomaton

end Nixie.Strings
