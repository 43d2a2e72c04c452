import Nixie.Strings.AutomataCorrect

/-! When minimisation, determinisation and products keep the strings accepted. -/

namespace Nixie.Strings.Dfa

open Option

variable {self : Dfa} {order : HashOrder} {partitions : List (Finset StateId)}

/-- The states, split by acceptance at least. -/
structure Splits (dfa : Dfa) (partitions : List (Finset StateId)) : Prop where
  covers : ∀ state, state < dfa.numStates ∨ state ∈ dfa.accepting → ∃ p ∈ partitions, state ∈ p
  disjoint : partitions.Pairwise Disjoint
  accepting : ∀ p ∈ partitions, ∀ s ∈ p, ∀ t ∈ p, s ∈ dfa.accepting ↔ t ∈ dfa.accepting

variable {p : Finset StateId}

theorem mem_splitPartition (state : StateId) :
    (∃ q ∈ self.splitPartition order partitions p, state ∈ q) ↔ state ∈ p := by
  rcases self.splitPartition_spec order partitions p with
    kept | ⟨same, ne, -, -, -, rfl, split⟩
  · rw [kept]
    exact ⟨fun ⟨q, mem, lies⟩ => List.mem_singleton.mp mem ▸ lies,
      fun lies => ⟨p, List.mem_singleton_self p, lies⟩⟩
  · rw [split, Finset.mem_union]
    constructor
    · rintro ⟨q, mem, lies⟩
      rcases List.mem_cons.mp mem with rfl | other
      · exact .inl lies
      · exact .inr (List.mem_singleton.mp other ▸ lies)
    · rintro (lies | lies)
      · exact ⟨same, List.mem_cons_self, lies⟩
      · exact ⟨ne, List.mem_cons_of_mem _ List.mem_cons_self, lies⟩

theorem Splits.splitAll (splits : self.Splits partitions) :
    self.Splits (self.splitAll order partitions) where
  covers := by
    intro state present
    obtain ⟨p, mem, lies⟩ := splits.covers state present
    obtain ⟨q, part, insidePart⟩ := (@mem_splitPartition self order partitions p state).mpr lies
    exact ⟨q, List.mem_flatMap.mpr ⟨p, mem, part⟩, insidePart⟩
  disjoint := by
    rw [Dfa.splitAll, List.pairwise_flatMap]
    refine ⟨fun p _ => ?_, splits.disjoint.imp fun apart q part q' part' => ?_⟩
    · rcases self.splitPartition_spec order partitions p with
        kept | ⟨same, ne, -, -, apart, -, split⟩
      · rw [kept]
        exact List.pairwise_singleton _ _
      · rw [split]
        exact List.pairwise_pair.mpr apart
    · refine Finset.disjoint_left.mpr fun state lies insideOther => ?_
      exact Finset.disjoint_left.mp apart ((mem_splitPartition state).mp ⟨q, part, lies⟩)
        ((mem_splitPartition state).mp ⟨q', part', insideOther⟩)
  accepting := by
    intro q mem s lies t insideOther
    obtain ⟨p, memberPart, part⟩ := List.mem_flatMap.mp mem
    exact splits.accepting p memberPart s ((mem_splitPartition s).mp ⟨q, part, lies⟩) t
      ((mem_splitPartition t).mp ⟨q, part, insideOther⟩)

theorem Splits.refinePartitions (splits : self.Splits partitions) :
    self.Splits (self.refinePartitions order partitions) ∧
      ∀ p ∈ self.refinePartitions order partitions,
        self.splitPartition order (self.refinePartitions order partitions) p = [p] := by
  fun_induction Dfa.refinePartitions self order partitions with
  | case1 partitions changed ih => exact ih splits.splitAll
  | case2 partitions unchanged =>
    have kept : ∀ p ∈ partitions, self.splitPartition order partitions p = [p] := by
      intro p mem
      rcases self.splitPartition_spec order partitions p with
        kept | ⟨same, ne, -, -, -, -, split⟩
      · exact kept
      · refine absurd ⟨p, mem, ?_⟩ unchanged
        rw [split]
        exact Nat.one_lt_two
    have same : self.splitAll order partitions = partitions := by
      rw [Dfa.splitAll, List.flatMap_congr kept, List.flatMap_singleton']
    rw [same]
    exact ⟨splits, kept⟩

variable {map : AList (fun _ : StateId => StateId)}

theorem lookup_insertAll {i : StateId} (states : List StateId) (s : StateId) :
    (states.foldl (fun map state => map.insert state i) map).lookup s =
      if s ∈ states then some i else map.lookup s := by
  induction states generalizing map with
  | nil => exact (if_neg List.not_mem_nil).symm
  | cons state states ih =>
    rw [List.foldl_cons, ih]
    by_cases later : s ∈ states
    · rw [if_pos later, if_pos (List.mem_cons_of_mem _ later)]
    · rw [if_neg later]
      by_cases here : s = state
      · subst here
        rw [AList.lookup_insert, if_pos List.mem_cons_self]
      · rw [AList.lookup_insert_ne here, if_neg ((List.mem_cons.not.trans not_or).mpr ⟨here, later⟩)]

theorem lookup_insertParts {parts : List (Finset StateId × Nat)}
    (disjoint : parts.Pairwise fun p q => Disjoint p.1 q.1) {s : StateId} {part : Finset StateId × Nat}
    (mem : part ∈ parts) (lies : s ∈ part.1) :
    (parts.foldl (fun map part =>
      part.1.sort.foldl (fun map state => map.insert state part.2) map) map).lookup s =
      some part.2 := by
  have outside {parts : List (Finset StateId × Nat)} {map : AList (fun _ : StateId => StateId)}
      (apart : ∀ q ∈ parts, s ∉ q.1) :
      (parts.foldl (fun map part =>
        part.1.sort.foldl (fun map state => map.insert state part.2) map) map).lookup s =
        map.lookup s := by
    induction parts generalizing map with
    | nil => rfl
    | cons q parts ih =>
      obtain ⟨first, rest⟩ := List.forall_mem_cons.mp apart
      rw [List.foldl_cons, ih rest, lookup_insertAll, if_neg (mt (Finset.mem_sort _).mp first)]
  induction parts generalizing map with
  | nil => exact absurd mem List.not_mem_nil
  | cons q parts ih =>
    obtain ⟨apart, disjoint⟩ := List.pairwise_cons.mp disjoint
    rw [List.foldl_cons]
    rcases List.mem_cons.mp mem with rfl | later
    · -- No later part has the state again.
      rw [outside fun q later => Finset.disjoint_left.mp (apart q later) lies, lookup_insertAll,
        if_pos ((Finset.mem_sort _).mpr lies)]
    · exact ih disjoint later

theorem Splits.lookup (splits : self.Splits partitions) {i : Nat}
    (found : partitions[i]? = some p) {s : StateId} (lies : s ∈ p) :
    (stateToPartition partitions).lookup s = some i := by
  have parts : (partitions.zipIdx).Pairwise fun p q => Disjoint p.1 q.1 := by
    rw [← List.pairwise_map (f := Prod.fst), List.zipIdx_map_fst]
    exact splits.disjoint
  have mem : (p, i) ∈ partitions.zipIdx := List.mk_mem_zipIdx_iff_getElem?.mpr found
  exact lookup_insertParts parts mem lies

end Nixie.Strings.Dfa

namespace Nixie.Strings

end Nixie.Strings
