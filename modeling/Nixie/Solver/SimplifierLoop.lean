import Nixie.Solver.SimplifierRules

/-! The worklist of the simplifier ends, and its cache only holds terms that stand for each other. -/

namespace Nixie.Ast.Simplifier

open List Function Option

/-- Every cached term stands for its key, and is not higher. -/
structure Cache.Sound (cache : Cache) : Prop where
  stands : ∀ term simplified, cache term = some simplified → StandsFor simplified term
  low : ∀ term simplified, cache term = some simplified → simplified.height ≤ term.height

def Cache.Extends (cache cache' : Cache) : Prop :=
  ∀ term simplified, cache term = some simplified → cache' term = some simplified

namespace Cache

variable {cache cache' cache'' : Cache}

theorem Extends.refl (cache : Cache) : cache.Extends cache := fun _ _ found => found

theorem Extends.trans (first : cache.Extends cache') (second : cache'.Extends cache'') :
    cache.Extends cache'' :=
  fun term simplified found => second term simplified (first term simplified found)

variable {term : Term}

theorem Extends.isSome (extends_ : cache.Extends cache')
    (cached : (cache term).isSome) : (cache' term).isSome := by
  obtain ⟨simplified, found⟩ := isSome_iff_exists.mp cached
  rw [extends_ term simplified found]
  rfl

namespace Sound

variable (sound : cache.Sound)

include sound

theorem look_stands (term : Term) : StandsFor (cache.look term) term := by
  unfold look
  cases found : cache term with
  | none => exact .refl term
  | some simplified => exact sound.stands term simplified found

theorem look_low (term : Term) : (cache.look term).height ≤ term.height := by
  unfold look
  cases found : cache term with
  | none => exact le_refl _
  | some simplified => exact sound.low term simplified found

theorem insert (before : InternOrder) (term : Term) : Cache.Sound
      (update cache term (some (simplifyImpl before cache.look term))) := by
  constructor
  · intro other simplified found
    by_cases same : other = term
    · subst same
      rw [update_self] at found
      obtain rfl := some.inj found
      exact simplifyImpl_standsFor sound.look_stands other
    · rw [update_of_ne same] at found
      exact sound.stands other simplified found
  · intro other simplified found
    by_cases same : other = term
    · subst same
      rw [update_self] at found
      obtain rfl := some.inj found
      exact height_simplifyImpl sound.look_low other
    · rw [update_of_ne same] at found
      exact sound.low other simplified found

end Sound

theorem extends_insert (missing : ¬(cache term).isSome) (simplified : Term) :
    cache.Extends (update cache term (some simplified)) := by
  intro other result found
  by_cases same : other = term
  · rw [← same, found] at missing
    exact absurd rfl missing
  · rw [update_of_ne same]
    exact found

end Cache

theorem height_children {child : Term} (mem : child ∈ children term) :
    child.height < term.height := by
  -- All children are arguments.
  have lies : ∃ kind args, term = .node kind args ∧ child ∈ args := by
    unfold children at mem
    split at mem
    · exact ⟨_, _, rfl, mem⟩
    · exact ⟨_, _, rfl, mem⟩
    · exact ⟨_, _, rfl, mem⟩
    · exact ⟨_, _, rfl, mem⟩
    · exact ⟨_, _, rfl, mem⟩
    · exact ⟨_, _, rfl, mem⟩
    · cases mem
  obtain ⟨kind, args, rfl, argument⟩ := lies
  rw [Term.height_node]
  exact Nat.lt_succ_of_le (Term.height_le_heights argument)

theorem height_nestedChildren {cache : Cache} (sound : cache.Sound) {child : Term}
    (mem : child ∈ nestedChildren cache term) : child.height < term.height := by
  -- They are arguments of what an argument was simplified to.
  have lies : ∃ kind args conjunction, term = .node kind args ∧
      child ∈ args.flatMap fun arg => ((cache arg).bind (nestedArgs conjunction)).getD [] := by
    unfold nestedChildren at mem
    split at mem
    · exact ⟨_, _, _, rfl, mem⟩
    · exact ⟨_, _, _, rfl, mem⟩
    · cases mem
  obtain ⟨kind, args, conjunction, rfl, lies⟩ := lies
  obtain ⟨arg, argument, lies⟩ := mem_flatMap.mp lies
  cases found : (cache arg).bind (nestedArgs conjunction) with
  | none => simp [found] at lies
  | some nested =>
    rw [found, getD_some] at lies
    obtain ⟨simplified, cached, nests⟩ := bind_eq_some_iff.mp found
    have lower := sound.low arg simplified cached
    have inner := heights_nestedArgs nests
    have bound := Term.height_le_heights lies
    have outer := Term.height_le_heights argument
    rw [Term.height_node]
    omega

theorem nestedChildren_eq {cache cache' : Cache} (extends_ : cache.Extends cache')
    (cached : ∀ child ∈ children term, (cache child).isSome) :
    nestedChildren cache' term = nestedChildren cache term := by
  unfold nestedChildren
  split
  · refine flatMap_congr fun arg mem => ?_
    obtain ⟨simplified, found⟩ := isSome_iff_exists.mp (cached arg mem)
    rw [found, extends_ arg simplified found]
  · refine flatMap_congr fun arg mem => ?_
    obtain ⟨simplified, found⟩ := isSome_iff_exists.mp (cached arg mem)
    rw [found, extends_ arg simplified found]
  · rfl

theorem filter_isNone_eq_nil {cache : Cache} {terms : List Term} :
    (terms.filter fun term => (cache term).isNone) = [] ↔
      ∀ term ∈ terms, (cache term).isSome := by
  simp [filter_eq_nil_iff, isSome_iff_ne_none]

variable {before : InternOrder}

/-- The loop works off the terms on top of the stack, and leaves them in the cache. -/
def Settles (before : InternOrder) (terms : List Term) (cache : Cache) : Prop :=
  ∃ cache' : Cache, cache'.Sound ∧ cache.Extends cache' ∧ (∀ term ∈ terms, (cache' term).isSome) ∧
    ∃ steps, ∀ stack fuel, simplifyLoop before (fuel + steps) (terms ++ stack) cache =
      simplifyLoop before fuel stack cache'

theorem settles_of_each {terms : List Term}
    (each : ∀ term ∈ terms, ∀ cache : Cache, cache.Sound → Settles before [term] cache)
    {cache : Cache} (sound : cache.Sound) : Settles before terms cache := by
  induction terms generalizing cache with
  | nil => exact ⟨cache, sound, .refl cache, fun _ mem => (nomatch mem), 0, fun _ _ => rfl⟩
  | cons term rest ih =>
    obtain ⟨head, tail⟩ := forall_mem_cons.mp each
    obtain ⟨first, sound', extends_, cached, steps, run⟩ := head cache sound
    obtain ⟨second, sound'', extends', cached', steps', run'⟩ := ih tail sound'
    refine ⟨second, sound'', extends_.trans extends', ?_, steps' + steps, fun stack fuel => ?_⟩
    · exact forall_mem_cons.mpr
        ⟨extends'.isSome (cached term mem_cons_self), cached'⟩
    · rw [← Nat.add_assoc, cons_append, ← singleton_append, run, run']

theorem settles_of_cached {cache : Cache} (sound : cache.Sound)
    (direct : ∀ child ∈ children term, (cache child).isSome)
    (nested : ∀ child ∈ nestedChildren cache term, (cache child).isSome) :
    Settles before [term] cache := by
  by_cases done : (cache term).isSome
  · refine ⟨cache, sound, .refl cache, by simpa using done, 1, fun stack fuel => ?_⟩
    rw [singleton_append, simplifyLoop, if_pos done]
  · refine ⟨_, sound.insert before term, Cache.extends_insert done _, ?_, 1, fun stack fuel => ?_⟩
    · simp
    · have missing : missingDependencies cache term = [] := by
        rw [missingDependencies, filter_isNone_eq_nil.mpr direct]
        exact filter_isNone_eq_nil.mpr nested
      rw [singleton_append, simplifyLoop, if_neg done, missing]

theorem settles_of_missing {cache : Cache} (open_ : ¬(cache term).isSome)
    {first : Term} {rest : List Term} (missing : missingDependencies cache term = first :: rest)
    {cache' : Cache} (extends_ : cache.Extends cache') {steps : Nat}
    (run : ∀ stack fuel, simplifyLoop before (fuel + steps) (first :: rest ++ stack) cache =
      simplifyLoop before fuel stack cache')
    (settles : Settles before [term] cache') : Settles before [term] cache := by
  obtain ⟨cache'', sound, extends', cached, steps', run'⟩ := settles
  refine ⟨cache'', sound, extends_.trans extends', cached, steps' + steps + 1,
    fun stack fuel => ?_⟩
  rw [← Nat.add_assoc, ← Nat.add_assoc, singleton_append, simplifyLoop, if_neg open_, missing]
  dsimp only
  rw [run]
  exact run' stack fuel

theorem settles (term : Term) {cache : Cache} (sound : cache.Sound) :
    Settles before [term] cache := by
  induction bound : term.height using Nat.strong_induction_on generalizing term cache with
  | _ height ih =>
    have lower (terms : List Term) (below : ∀ child ∈ terms, child.height < term.height)
        (cache : Cache) (sound : cache.Sound) : Settles before terms cache :=
      settles_of_each (fun child mem cache sound =>
        ih child.height (bound ▸ below child mem) child sound rfl) sound
    -- With the arguments cached, the second round is left.
    have second (cache : Cache) (sound : cache.Sound)
        (direct : ∀ child ∈ children term, (cache child).isSome) :
        Settles before [term] cache := by
      have none : (children term).filter (fun child => (cache child).isNone) = [] :=
        filter_isNone_eq_nil.mpr direct
      by_cases done : (cache term).isSome
      · refine ⟨cache, sound, .refl cache, by simpa using done, 1, fun stack fuel => ?_⟩
        rw [singleton_append, simplifyLoop, if_pos done]
      match missing : (nestedChildren cache term).filter fun child => (cache child).isNone with
      | [] => exact settles_of_cached sound direct (filter_isNone_eq_nil.mp missing)
      | first :: rest =>
        have below : ∀ child ∈ first :: rest, child.height < term.height := fun child mem =>
          height_nestedChildren sound (mem_of_mem_filter (missing ▸ mem))
        obtain ⟨cache', sound', extends_, cached, steps, run⟩ := lower _ below cache sound
        refine settles_of_missing done (by rw [missingDependencies, none, missing]) extends_ run
          (settles_of_cached sound' (fun child mem => extends_.isSome (direct child mem)) ?_)
        rw [nestedChildren_eq extends_ direct]
        intro child mem
        by_cases before_ : (cache child).isSome
        · exact extends_.isSome before_
        · refine cached child (missing ▸ mem_filter.mpr ⟨mem, ?_⟩)
          simpa using before_
    by_cases done : (cache term).isSome
    · refine ⟨cache, sound, .refl cache, by simpa using done, 1, fun stack fuel => ?_⟩
      rw [singleton_append, simplifyLoop, if_pos done]
    match missing : (children term).filter fun child => (cache child).isNone with
    | [] => exact second cache sound (filter_isNone_eq_nil.mp missing)
    | first :: rest =>
      have below : ∀ child ∈ first :: rest, child.height < term.height := fun child mem =>
        height_children (mem_of_mem_filter (missing ▸ mem))
      obtain ⟨cache', sound', extends_, cached, steps, run⟩ := lower _ below cache sound
      refine settles_of_missing done (by rw [missingDependencies, missing]) extends_ run
        (second cache' sound' fun child mem => ?_)
      by_cases before_ : (cache child).isSome
      · exact extends_.isSome before_
      · refine cached child (missing ▸ mem_filter.mpr ⟨mem, ?_⟩)
        simpa using before_

theorem simplify_spec (before : InternOrder) (term : Term) {cache : Cache} (sound : cache.Sound) :
    ∃ (simplified : Term) (cache' : Cache) (steps : Nat),
      (∀ fuel, steps ≤ fuel → simplify before fuel term cache = some (simplified, cache')) ∧
      StandsFor simplified term ∧ cache'.Sound := by
  cases found : cache term with
  | some simplified =>
    refine ⟨simplified, cache, 0, fun fuel _ => ?_, sound.stands term simplified found, sound⟩
    rw [simplify, found]
  | none =>
    obtain ⟨cache', sound', -, -, steps, run⟩ := @settles before term cache sound
    refine ⟨cache'.look term, cache', steps, fun fuel enough => ?_, sound'.look_stands term, sound'⟩
    obtain ⟨rest, rfl⟩ := Nat.exists_eq_add_of_le' enough
    have ended : simplifyLoop before rest [] cache' = some cache' := by
      cases rest <;> rfl
    rw [simplify, found, ← append_nil [term]]
    simp only [run [] rest, ended, map_some]

end Nixie.Ast.Simplifier
