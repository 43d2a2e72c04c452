import Nixie.DiffLogic.Dense.Correct
import Nixie.Graph.Feasible

/-! An accepted edge queues every atom that it decides. -/

namespace Nixie.DiffLogic.Dense

open Nixie.Graph List

variable {n : Nat} {cells : Cells} {live : List DlEdge} {a : DlAtomEntry} {pol : Bool}

/-- Every solution of the edges gives the atom the polarity. -/
def Entails (live : List DlEdge) (a : DlAtomEntry) (pol : Bool) : Prop :=
  ∀ value, (∀ e ∈ live, e.Holds value) → (a.Holds value ↔ pol = true)

theorem exists_solution (sound : NoNegativeCycle (EdgeRel live)) :
    ∃ value, ∀ e ∈ live, e.Holds value := by
  have listed : NoNegativeCycle (listEdge (live.map fun e => (e.src, e.dst, e.offset))) := by
    refine sound.mono fun a b w mem => ?_
    obtain ⟨e, lies, same⟩ := mem_map.mp mem
    cases same
    exact ⟨e, lies, rfl, rfl, rfl⟩
  obtain ⟨value, potential⟩ := exists_potential listed
  exact ⟨value, fun e mem => sub_le_iff_le_add'.mpr (potential _ _ _ (mem_map_of_mem mem))⟩

theorem Exact.bounded_iff (exact_ : Exact n cells live) {s t : Nat} {k : Int} :
    Bounded cells s t k ↔ ∀ value, (∀ e ∈ live, e.Holds value) → value t - value s ≤ k := by
  constructor
  · rintro ⟨finite, bound⟩ value holds
    obtain ⟨_, walk⟩ := (exact_.isLeast finite).1
    have potential : Potential (EdgeRel live) value := by
      rintro a b w ⟨e, mem, rfl, rfl, rfl⟩
      exact sub_le_iff_le_add'.mp (holds e mem)
    have within := potential.walk walk
    omega
  · intro entailed
    -- The opposite edge has no solution with the others.
    obtain ⟨finite, light⟩ := (exact_.conflict_iff (e := ⟨t, s, -k - 1, 0, true⟩)).mp fun sound => by
      obtain ⟨value, holds⟩ := exists_solution sound
      have within := entailed value fun e mem => holds e (mem_append_left _ mem)
      have beyond : value s - value t ≤ -k - 1 := holds _ (mem_append_right _ (.head _))
      omega
    dsimp only at finite light
    exact ⟨finite, by omega⟩

theorem Exact.decided_iff (exact_ : Exact n cells live) (kind : pol = true ∨ a.isEq = false) :
    Decided cells a pol ↔ Entails live a pol := by
  unfold Entails DlAtomEntry.Holds
  cases pol with
  | true =>
    simp only [Decided, exact_.bounded_iff, iff_true]
    by_cases equality : a.isEq = true
    · simp only [equality, if_true, forall_const]
      constructor
      · intro bounds value holds
        have := bounds.1 value holds
        have := bounds.2 value holds
        omega
      · intro equal
        constructor
        all_goals
          intro value holds
          have := equal value holds
          omega
    · simp [equality]
  | false =>
    have bound := kind.resolve_left (by decide)
    simp only [Decided, exact_.bounded_iff, bound, true_and, iff_false, Bool.false_eq_true, if_false]
    refine forall₂_congr fun value _ => ?_
    omega

/-- After every history an accepted edge queues each registered atom that it newly decides; the
queue never refutes equalities. -/
theorem Session.Reachable.assertEdge_queues {session : Session} (reachable : session.Reachable)
    {e : DlEdge} (legal : session.Legal (.assertEdge e)) (accepted : (session.outcome e).2 = .ok)
    (mem : a ∈ session.core.atoms) (kind : pol = true ∨ a.isEq = false)
    (entailed : Entails (session.live ++ [e]) a pol) (before : ¬ Entails session.live a pol) :
    Queued (session.outcome e).1.pending a.key pol := by
  have faithful := reachable.faithful
  have exact_ := faithful.exact_
  have old : ¬ Decided session.core.cells a pol := (exact_.decided_iff kind).not.mpr before
  unfold Session.outcome at *
  rcases assertEdge_cases exact_ legal.1 with
    ⟨_, _, outcome⟩ | ⟨cycle, ⟨_, outcome⟩ | ⟨longer, outcome⟩⟩
  · rw [outcome] at accepted
    cases accepted
  · have accepts : Accepted _ _ e := ⟨legal.1, legal.2, cycle⟩
    obtain ⟨⟨_, alert, -⟩, table⟩ := faithful.updateCells accepts
    have next := exact_.after faithful.budget accepts session.core.edges.length
    rw [← table] at next
    rw [outcome]
    exact (alert.noticed a mem pol ((next.decided_iff kind).mpr entailed)).resolve_left old
  · -- An edge that improves no distance decides nothing.
    have same := exact_.redundant faithful.budget ⟨legal.1, legal.2, cycle⟩ longer
    exact absurd ((same.decided_iff kind).mpr entailed) old

/-- Once the scope is closed, an edge that decides the atom again queues it again. -/
theorem closed_scope_propagates :
    Queued ((Session.twoEdges.run .pop).outcome ⟨0, 2, 3, 3, true⟩).1.pending 9 true := by
  refine (Session.twoEdges_reachable.run .pop trivial).assertEdge_queues ⟨by decide, by decide⟩
    (by decide) (a := ⟨9, 0, 2, 3, false⟩) (by decide) (.inl rfl) (fun value holds => ?_)
    fun entails => ?_
  · exact iff_of_true (holds ⟨0, 2, 3, 3, true⟩ (by decide)) rfl
  · have bound := (entails (fun v => if v = 2 then 9 else 0) (fun e mem => absurd mem ?_)).mpr rfl
    · exact absurd (show (9 : Int) - 0 ≤ 3 from bound) (by decide)
    · exact not_mem_nil

end Nixie.DiffLogic.Dense
