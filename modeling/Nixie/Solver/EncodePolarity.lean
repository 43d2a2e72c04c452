import Nixie.Solver.EncodeJournal
import Nixie.Solver.EncodeValue

/-! The collected polarities cover every occurrence below a collected term. -/

namespace Nixie.Tseitin

open List

/-- Terms that a productive visit descends to, with the polarities it hands down. -/
def collectedChildren : Term → Polarity → List (Term × Polarity)
  | .not arg, polarity => [(arg, polarity.flip)]
  | .and args, polarity => args.map fun arg => (arg, polarity)
  | .or args, polarity => args.map fun arg => (arg, polarity)
  | .implies lhs rhs, polarity => [(lhs, polarity.flip), (rhs, polarity)]
  | .ite cond thenBr elseBr, polarity => [(cond, .both), (thenBr, polarity), (elseBr, polarity)]
  | .xor lhs rhs, _ => [(lhs, .both), (rhs, .both)]
  | .eq lhs rhs, _ => [(lhs, .both), (rhs, .both)]
  | .distinct args, _ => (args.filter fun arg => arg.sort = .bool).map fun arg => (arg, .both)
  | .apply _ args _, _ => (args.filter fun arg => arg.sort = .bool).map fun arg => (arg, .both)
  | .forallQ _ body, _ => [(body, .both)]
  | .existsQ _ body, _ => [(body, .both)]
  | _, _ => []

def collectEach (occurrences : List (Term × Polarity)) (map : TermMap Polarity) :
    TermMap Polarity :=
  occurrences.foldl (fun map occurrence => collectPolarities occurrence.1 occurrence.2 map) map

theorem collectAll_eq (args : List Term) (polarity : Polarity) (map : TermMap Polarity) :
    collectAll args polarity map = collectEach (args.map fun arg => (arg, polarity)) map := by
  induction args generalizing map with
  | nil => simp [collectAll, collectEach]
  | cons arg rest ih => simpa [collectAll, collectEach] using ih (collectPolarities arg polarity map)

theorem collectBool_eq (args : List Term) (map : TermMap Polarity) :
    collectBool args map = collectEach
      ((args.filter fun arg => arg.sort = .bool).map fun arg => (arg, .both)) map := by
  induction args generalizing map with
  | nil => simp [collectBool, collectEach]
  | cons arg rest ih =>
    by_cases boolean : arg.sort = .bool
    · simpa [collectBool, collectEach, boolean] using ih (collectPolarities arg .both map)
    · simpa [collectBool, collectEach, boolean] using ih map

theorem collectPolarities_eq (term : Term) (polarity : Polarity) (map : TermMap Polarity) :
    collectPolarities term polarity map =
      visit term polarity (collectEach (collectedChildren term polarity)) map := by
  -- Each arm of the walk hands down what the table of children lists.
  cases term with
  | and args =>
    rw [collectPolarities]
    exact congrArg (visit _ _ · map) (funext (collectAll_eq args polarity))
  | or args =>
    rw [collectPolarities]
    exact congrArg (visit _ _ · map) (funext (collectAll_eq args polarity))
  | distinct args =>
    rw [collectPolarities]
    exact congrArg (visit _ _ · map) (funext (collectBool_eq args))
  | apply func args sort =>
    rw [collectPolarities]
    exact congrArg (visit _ _ · map) (funext (collectBool_eq args))
  | _ => simp [collectPolarities, collectedChildren, collectEach, visit]

theorem sizeOf_pos (term : Term) : 0 < sizeOf term := by
  cases term <;> simp <;> omega

variable {child : Term × Polarity}

theorem collectedChildren_size {term : Term} {polarity : Polarity}
    (mem : child ∈ collectedChildren term polarity) : sizeOf child.1 < sizeOf term := by
  have listed : ∀ {args : List Term} {arg : Term}, arg ∈ args → sizeOf arg < 1 + sizeOf args := by
    intro args arg lies
    have := sizeOf_lt_of_mem lies
    omega
  have pair : ∀ {lhs rhs : Term × Polarity}, child ∈ [lhs, rhs] →
      child.1 = lhs.1 ∨ child.1 = rhs.1 := by
    intro lhs rhs lies
    simp only [mem_cons, not_mem_nil, or_false] at lies
    rcases lies with rfl | rfl
    · exact .inl rfl
    · exact .inr rfl
  cases term with
  | and args =>
    obtain ⟨arg, lies, rfl⟩ := mem_map.mp mem
    simpa using listed lies
  | or args =>
    obtain ⟨arg, lies, rfl⟩ := mem_map.mp mem
    simpa using listed lies
  | distinct args =>
    obtain ⟨arg, lies, rfl⟩ := mem_map.mp mem
    simpa using listed (mem_of_mem_filter lies)
  | apply func args sort =>
    obtain ⟨arg, lies, rfl⟩ := mem_map.mp mem
    have := listed (mem_of_mem_filter lies)
    simp only [Term.apply.sizeOf_spec]
    omega
  | ite cond thenBr elseBr =>
    simp only [collectedChildren, mem_cons, not_mem_nil, or_false] at mem
    rcases mem with rfl | rfl | rfl <;> simp <;> omega
  | not arg =>
    rw [mem_singleton.mp mem]
    simp
  | forallQ vars body =>
    rw [mem_singleton.mp mem]
    simp only [Term.forallQ.sizeOf_spec]
    omega
  | existsQ vars body =>
    rw [mem_singleton.mp mem]
    simp only [Term.existsQ.sizeOf_spec]
    omega
  | xor lhs rhs => rcases pair mem with same | same <;> simp [same] <;> omega
  | implies lhs rhs => rcases pair mem with same | same <;> simp [same] <;> omega
  | eq lhs rhs => rcases pair mem with same | same <;> simp [same] <;> omega
  | _ => cases mem

/-- The stored polarity of an occurrence's term covers the occurrence. -/
def Delivered (map : TermMap Polarity) (occurrence : Term × Polarity) : Prop :=
  ∃ stored, map occurrence.1 = some stored ∧ stored.Covers occurrence.2

theorem Delivered.mono {old new : TermMap Polarity} (widens : Widens old new)
    {occurrence : Term × Polarity} (delivered : Delivered old occurrence) :
    Delivered new occurrence := by
  obtain ⟨stored, found, covers⟩ := delivered
  obtain ⟨wider, found', covers'⟩ := widens _ _ found
  exact ⟨wider, found', covers'.trans covers⟩

/-- Terms up to a size have handed their stored polarity down. -/
def HandedDown (size : Nat) (map : TermMap Polarity) : Prop :=
  ∀ term polarity, sizeOf term ≤ size → map term = some polarity →
    ∀ child ∈ collectedChildren term polarity, Delivered map child

@[simp] theorem Polarity.join_none (visited : Polarity) : Polarity.join none visited = visited := by
  cases visited <;> rfl

theorem Polarity.join_covers_visit (stored : Option Polarity) (visited : Polarity) :
    (Polarity.join stored visited).Covers visited := by
  rcases stored with _ | stored
  · exact .inr (by simp)
  · cases stored <;> cases visited <;> decide

theorem Polarity.join_covers_stored (stored visited : Polarity) :
    (Polarity.join (some stored) visited).Covers stored := by
  cases stored <;> cases visited <;> decide

variable {map : TermMap Polarity}

theorem delivered_both {term : Term}
    (pos : ∀ child ∈ collectedChildren term .positive, Delivered map child)
    (negative : ∀ child ∈ collectedChildren term .negative, Delivered map child) :
    ∀ child ∈ collectedChildren term .both, Delivered map child := by
  -- Two single deliveries of one term can only be covered by the joint one.
  have both : ∀ {child : Term}, Delivered map (child, .positive) →
      Delivered map (child, .negative) → Delivered map (child, .both) := by
    intro child first second
    obtain ⟨stored, found, covers⟩ := first
    obtain ⟨stored', found', covers'⟩ := second
    have found : map child = some stored := found
    have found' : map child = some stored' := found'
    rw [found, Option.some.injEq] at found'
    subst found'
    refine ⟨stored, found, ?_⟩
    rcases covers with rfl | rfl
    · exact .inl rfl
    · rcases covers' with wrong | wrong <;> cases wrong
  cases term with
  | and args =>
    intro child mem
    obtain ⟨arg, lies, rfl⟩ := mem_map.mp mem
    exact both (pos _ (mem_map.mpr ⟨arg, lies, rfl⟩))
      (negative _ (mem_map.mpr ⟨arg, lies, rfl⟩))
  | or args =>
    intro child mem
    obtain ⟨arg, lies, rfl⟩ := mem_map.mp mem
    exact both (pos _ (mem_map.mpr ⟨arg, lies, rfl⟩))
      (negative _ (mem_map.mpr ⟨arg, lies, rfl⟩))
  | not arg =>
    simp only [collectedChildren, mem_cons, not_mem_nil, or_false, forall_eq,
      Polarity.flip] at pos negative ⊢
    exact both negative pos
  | implies lhs rhs =>
    simp only [collectedChildren, mem_cons, not_mem_nil, or_false,
      forall_eq_or_imp, forall_eq, Polarity.flip] at pos negative ⊢
    exact ⟨both negative.1 pos.1, both pos.2 negative.2⟩
  | ite cond thenBr elseBr =>
    simp only [collectedChildren, mem_cons, not_mem_nil, or_false,
      forall_eq_or_imp, forall_eq] at pos negative ⊢
    exact ⟨pos.1, both pos.2.1 negative.2.1, both pos.2.2 negative.2.2⟩
  | _ => exact pos

theorem delivered_join {term : Term} {stored : Option Polarity} {visited : Polarity}
    (old : ∀ before, stored = some before →
      ∀ child ∈ collectedChildren term before, Delivered map child)
    (new : ∀ child ∈ collectedChildren term visited, Delivered map child) :
    ∀ child ∈ collectedChildren term (Polarity.join stored visited), Delivered map child := by
  rcases stored with _ | before
  · rw [Polarity.join_none]
    exact new
  · have old := old before rfl
    -- Only two opposite polarities join to something new.
    cases before <;> cases visited <;>
      first | exact old | exact new | exact delivered_both old new | exact delivered_both new old

/-- What collecting occurrences up to a size guarantees. -/
structure Collects (size bound : Nat) (occurrences : List (Term × Polarity))
    (map map' : TermMap Polarity) : Prop where
  widens : Widens map map'
  handedDown : HandedDown bound map'
  delivered : ∀ occurrence ∈ occurrences, Delivered map' occurrence
  frame : ∀ term, size < sizeOf term → map' term = map term

theorem collectEach_spec {size bound : Nat} {occurrences : List (Term × Polarity)}
    (works : ∀ occurrence ∈ occurrences, ∀ map, HandedDown bound map →
      Collects size bound [occurrence] map (collectPolarities occurrence.1 occurrence.2 map)) :
    ∀ {map}, HandedDown bound map →
      Collects size bound occurrences map (collectEach occurrences map) := by
  induction occurrences with
  | nil =>
    intro map handed
    exact ⟨.refl map, handed, fun _ mem => (not_mem_nil mem).elim, fun _ _ => rfl⟩
  | cons occurrence rest ih =>
    intro map handed
    have head := works occurrence (by simp) map handed
    have tail := ih (fun other mem => works other (by simp [mem])) head.handedDown
    refine ⟨head.widens.trans tail.widens, tail.handedDown, ?_, ?_⟩
    · intro other mem
      rcases mem_cons.mp mem with rfl | later
      · exact (head.delivered _ (by simp)).mono tail.widens
      · exact tail.delivered other later
    · intro term above
      exact (tail.frame term above).trans (head.frame term above)

theorem widens_set_join (map : TermMap Polarity) (term : Term) (polarity : Polarity) :
    Widens map (map.set term (some (Polarity.join (map term) polarity))) := by
  intro other stored found
  by_cases here : other = term
  · subst here
    refine ⟨Polarity.join (map other) polarity, by simp [TermMap.set], ?_⟩
    rw [found]
    exact Polarity.join_covers_stored stored polarity
  · exact ⟨stored, by simpa [TermMap.set, here] using found, .refl stored⟩

theorem collectPolarities_spec : ∀ (size : Nat) (term : Term), sizeOf term ≤ size →
    ∀ (polarity : Polarity) (bound : Nat) (map : TermMap Polarity), sizeOf term ≤ bound →
      HandedDown bound map →
      Collects (sizeOf term) bound [(term, polarity)] map
        (collectPolarities term polarity map) := by
  intro size
  induction size with
  | zero =>
    intro term small
    have := sizeOf_pos term
    omega
  | succ size ih =>
    intro term small polarity bound map within handed
    rw [collectPolarities_eq]
    unfold visit
    dsimp only
    split
    · -- An unproductive visit finds its polarity stored and handed down already.
      rename_i stored
      refine ⟨.refl map, handed, ?_, fun _ _ => rfl⟩
      simp only [mem_singleton, forall_eq]
      exact ⟨_, stored, Polarity.join_covers_visit _ _⟩
    · generalize updated_eq : Polarity.join (map term) polarity = updated
      -- While the children are collected, only smaller terms hand their polarity down.
      have wide : Widens map (map.set term (some updated)) :=
        updated_eq ▸ widens_set_join map term polarity
      have below : HandedDown (sizeOf term - 1) (map.set term (some updated)) := by
        intro other stored small' found child mem
        have ne : other ≠ term := by
          intro same
          subst same
          have := sizeOf_pos other
          omega
        have found : map other = some stored := by simpa [TermMap.set, ne] using found
        exact (handed other stored (by omega) found child mem).mono wide
      have inner : Collects (sizeOf term - 1) (sizeOf term - 1)
          (collectedChildren term polarity) (map.set term (some updated))
          (collectEach (collectedChildren term polarity) (map.set term (some updated))) := by
        refine collectEach_spec (fun child mem map' handed' => ?_) below
        have smaller := collectedChildren_size mem
        have one := ih child.1 (by omega) child.2 (sizeOf term - 1) map' (by omega) handed'
        exact ⟨one.widens, one.handedDown, one.delivered,
          fun other above => one.frame other (by omega)⟩
      have pos := sizeOf_pos term
      have kept := inner.frame term (by omega)
      generalize collectEach (collectedChildren term polarity) (map.set term (some updated)) =
        map' at inner kept
      have stored : map' term = some updated := by
        rw [kept]
        simp [TermMap.set]
      have widens : Widens map map' := wide.trans inner.widens
      refine ⟨widens, ?_, ?_, ?_⟩
      · intro other found_ size_ found child mem
        by_cases smaller : sizeOf other ≤ sizeOf term - 1
        · exact inner.handedDown other _ smaller found child mem
        · by_cases here : other = term
          · subst here
            rw [stored, Option.some.injEq] at found
            subst found
            rw [← updated_eq] at mem
            refine delivered_join (fun before was child mem => ?_) inner.delivered child mem
            exact (handed other before within was child mem).mono widens
          · have same : map' other = map other := by
              rw [inner.frame other (by omega)]
              simp [TermMap.set, here]
            rw [same] at found
            exact (handed other _ size_ found child mem).mono widens
      · simp only [mem_singleton, forall_eq]
        refine ⟨updated, stored, ?_⟩
        rw [← updated_eq]
        exact Polarity.join_covers_visit _ _
      · intro other above
        have ne : other ≠ term := by
          intro same
          subst same
          omega
        rw [inner.frame other (by omega)]
        simp [TermMap.set, ne]

section

variable (termId : Term → Nat)

/-- Encoded children of an occurrence, with the polarities they occur in. -/
def childOccurrences (occurrence : Term × Polarity) : List (Term × Polarity) :=
  (childTerms termId occurrence.1).zip (childPolarities occurrence.1 occurrence.2)

/-- The second occurrence lies somewhere below the first, or is the first. -/
def Occurs : Term × Polarity → Term × Polarity → Prop :=
  Relation.ReflTransGen fun parent child => child ∈ childOccurrences termId parent

variable {termId}

theorem propositional_occurrence {parent child : Term × Polarity}
    (wellFormed : Propositional parent.1) (below : child ∈ childOccurrences termId parent) :
    Propositional child.1 :=
  propositional_child wellFormed (of_mem_zip below).1

theorem Occurs.propositional {root occurrence : Term × Polarity}
    (occurs : Occurs termId root occurrence) (wellFormed : Propositional root.1) :
    Propositional occurrence.1 := by
  induction occurs with
  | refl => exact wellFormed
  | tail _ below ih => exact propositional_occurrence ih below

theorem Polarity.Covers.flip {stored needed : Polarity} (covers : stored.Covers needed) :
    stored.flip.Covers needed.flip := by
  rcases covers with rfl | rfl
  · exact .inl rfl
  · exact .inr rfl

theorem childOccurrences_collected {term : Term} (notDistinct : ∀ args, term ≠ .distinct args)
    {stored polarity : Polarity} (covers : stored.Covers polarity)
    (below : child ∈ childOccurrences termId (term, polarity)) :
    ∃ wider, (child.1, wider) ∈ collectedChildren term stored ∧ wider.Covers child.2 := by
  cases term with
  | distinct args => exact absurd rfl (notDistinct args)
  | and args =>
    simp only [childOccurrences, childTerms, childPolarities, zip_map_self] at below
    obtain ⟨arg, lies, rfl⟩ := mem_map.mp below
    exact ⟨stored, mem_map.mpr ⟨arg, lies, rfl⟩, covers⟩
  | or args =>
    simp only [childOccurrences, childTerms, childPolarities, zip_map_self] at below
    obtain ⟨arg, lies, rfl⟩ := mem_map.mp below
    exact ⟨stored, mem_map.mpr ⟨arg, lies, rfl⟩, covers⟩
  | not arg =>
    rw [mem_singleton.mp below]
    exact ⟨stored.flip, mem_singleton.mpr rfl, covers.flip⟩
  | implies lhs rhs =>
    simp only [childOccurrences, childTerms, childPolarities, zip_cons_cons,
      zip_nil_left, mem_cons, not_mem_nil, or_false] at below
    rcases below with rfl | rfl
    · exact ⟨stored.flip, by simp [collectedChildren], covers.flip⟩
    · exact ⟨stored, by simp [collectedChildren], covers⟩
  | ite cond thenBr elseBr =>
    simp only [childOccurrences, childTerms, childPolarities, zip_cons_cons,
      zip_nil_left, mem_cons, not_mem_nil, or_false] at below
    rcases below with rfl | rfl | rfl
    · exact ⟨.both, by simp [collectedChildren], .inl rfl⟩
    · exact ⟨stored, by simp [collectedChildren], covers⟩
    · exact ⟨stored, by simp [collectedChildren], covers⟩
  | xor lhs rhs =>
    simp only [childOccurrences, childTerms, childPolarities, zip_cons_cons,
      zip_nil_left, mem_cons, not_mem_nil, or_false] at below
    rcases below with rfl | rfl <;> exact ⟨.both, by simp [collectedChildren], .inl rfl⟩
  | eq lhs rhs =>
    simp only [childOccurrences, childTerms, childPolarities] at below
    split at below
    · simp only [zip_cons_cons, zip_nil_left, mem_cons, not_mem_nil, or_false] at below
      rcases below with rfl | rfl <;> exact ⟨.both, by simp [collectedChildren], .inl rfl⟩
    · cases below
  | _ => cases below

/-- The map covers the occurrence, or it is a built equality whose operands are covered. -/
def Ready (termId : Term → Nat) (map : TermMap Polarity) (occurrence : Term × Polarity) : Prop :=
  Delivered map occurrence ∨ (isPolarised occurrence.1 = false ∧
      ∀ child ∈ childOccurrences termId occurrence, Delivered map child)

theorem ready_mkEq {lhs rhs : Term} (sorts : lhs.sort = rhs.sort)
    (left : lhs.sort = .bool → Delivered map (lhs, .both))
    (right : rhs.sort = .bool → Delivered map (rhs, .both)) :
    isPolarised (mkEq termId lhs rhs) = false ∧
      ∀ child ∈ childOccurrences termId (mkEq termId lhs rhs, .both), Delivered map child := by
  have oriented : ∀ {a b : Term}, (a.sort = .bool → Delivered map (a, .both)) →
      (a.sort = .bool → Delivered map (b, .both)) →
      ∀ child ∈ childOccurrences termId (.eq a b, .both), Delivered map child := by
    intro a b first second child mem
    simp only [childOccurrences, childTerms, childPolarities] at mem
    split at mem
    · rename_i boolean
      simp only [zip_cons_cons, zip_nil_left, mem_cons, not_mem_nil, or_false] at mem
      rcases mem with rfl | rfl
      · exact first boolean
      · exact second boolean
    · cases mem
  -- Folded equalities have no children, and the two orientations have the operands.
  rcases @mkEq_cases termId lhs rhs with
    ⟨built, _⟩ | ⟨built, _, _⟩ | ⟨_, built | built⟩ <;> rw [built]
  · exact ⟨rfl, fun _ mem => (not_mem_nil mem).elim⟩
  · exact ⟨rfl, fun _ mem => (not_mem_nil mem).elim⟩
  · exact ⟨rfl, oriented left fun boolean => right (sorts ▸ boolean)⟩
  · exact ⟨rfl, oriented right fun boolean => left (sorts ▸ boolean)⟩

theorem Ready.below (handed : ∀ size, HandedDown size map)
    {parent : Term × Polarity} (wellFormed : Propositional parent.1)
    (ready : Ready termId map parent) (below : child ∈ childOccurrences termId parent) :
    Ready termId map child := by
  rcases ready with ⟨stored, found, covers⟩ | ⟨_, children⟩
  · obtain ⟨term, polarity⟩ := parent
    have delivered := handed (sizeOf term) term stored (Nat.le_refl _) found
    by_cases built : ∃ args, term = .distinct args
    · -- A distinct hands down to its arguments, which its built equalities compare.
      right
      obtain ⟨args, rfl⟩ := built
      simp only [childOccurrences, childTerms, childPolarities, zip_map'] at below
      obtain ⟨pair, lies, rfl⟩ := mem_map.mp below
      obtain ⟨left, right⟩ := mem_of_mem_pairs lies
      have argument : ∀ arg ∈ args, arg.sort = .bool → Delivered map (arg, .both) := by
        intro arg mem boolean
        refine delivered (arg, .both) (mem_map.mpr ⟨arg, ?_, rfl⟩)
        exact mem_filter.mpr ⟨mem, by simpa using boolean⟩
      exact ready_mkEq (wellFormed.2.1 _ left _ right) (argument _ left) (argument _ right)
    · left
      obtain ⟨wider, mem, covers'⟩ := childOccurrences_collected
        (fun args same => built ⟨args, same⟩) covers below
      obtain ⟨stored', found', covers''⟩ := delivered _ mem
      exact ⟨stored', found', covers''.trans covers'⟩
  · exact .inl (children child below)

theorem Ready.occurs (handed : ∀ size, HandedDown size map)
    {root occurrence : Term × Polarity} (wellFormed : Propositional root.1)
    (ready : Ready termId map root) (occurs : Occurs termId root occurrence) :
    Ready termId map occurrence := by
  induction occurs with
  | refl => exact ready
  | tail above below ih =>
    exact ih.below handed (Occurs.propositional above wellFormed) below

end

end Nixie.Tseitin
