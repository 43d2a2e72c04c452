import Nixie.Opt.IncrementalTotalizer
import Nixie.Opt.MaxSat

/-! What the clauses of one bound say, and what halving the interval finds. -/

namespace Nixie.Opt

open Netlist

namespace MaxSatSolver

/-- A search whose totalizer counts the inputs. -/
structure Search.Counting (search : Search) (inputs : List Lit) (base : Nat) : Prop where
  below : ∀ lit ∈ inputs, lit.var < base
  emitted : ∃ gates, search.totalizer.Emitted search.clauses inputs base gates

section

variable {search : Search} {inputs : List Lit} {base k : Nat} {m : Assignment}

theorem Search.counting_new (below : ∀ lit ∈ inputs, lit.var < base) :
    Search.Counting ⟨Totalizer.new inputs base, []⟩ inputs base where
  below := below
  emitted := ⟨[], Totalizer.emitted_new inputs base⟩

/--
Asking for the literal of a bound.

In every model of the clauses it is off where more inputs hold than the bound allows.
Every assignment of the inputs extends to a model in which it is off only there.
-/
theorem Search.bound_spec (counting : search.Counting inputs base) (within : k < inputs.length) :
    (search.bound k).2.Counting inputs base ∧ ∃ lit : Lit, (search.bound k).1 = some lit.negate ∧
      (∀ m, Models m (search.bound k).2.clauses → k < countTrue m inputs → lit.Holds m) ∧
      ∀ m, ∃ m', AgreeBelow base m m' ∧ Models m' (search.bound k).2.clauses ∧
        (lit.Holds m' → k < countTrue m' inputs) := by
  obtain ⟨below, gates, emitted⟩ := counting
  obtain ⟨new, emitted', encoded⟩ := emitted.encode (k + 1)
  have size : search.totalizer.size = inputs.length := by
    rw [Totalizer.size, ← Node.length_inputs, emitted.inputs_eq]
  have size' : (search.totalizer.ensureBound (k + 1)).2.root.size = inputs.length := by
    rw [← Node.length_inputs, emitted'.inputs_eq]
  -- The output that marks one more than the bound is encoded, and the literal is its opposite.
  obtain ⟨lit, found⟩ := encoded (by omega) k (by rw [size']; omega)
  have value : (search.bound k).1 = some lit.negate := by
    show ((search.totalizer.ensureBound (k + 1)).2.takeClauses.2).atMost k = _
    rw [Totalizer.atMost, Totalizer.atLeast, if_neg, if_neg, Nat.add_sub_cancel]
    · exact congrArg (Option.map Lit.negate) found
    · show ¬(k + 1 = 0 ∨ k + 1 > (search.totalizer.ensureBound (k + 1)).2.root.size)
      omega
    · show ¬k ≥ (search.totalizer.ensureBound (k + 1)).2.root.size
      omega
  have counted : ∀ m, (search.totalizer.ensureBound (k + 1)).2.root.count m =
      countTrue m inputs := by
    intro m
    rw [Node.count, emitted'.inputs_eq, countTrue]
  refine ⟨⟨below, gates ++ new, emitted'.take⟩, lit, value, fun m models more => ?_, fun m => ?_⟩
  · exact Node.forced emitted'.encoded ((emitted'.models_iff m).mp models) k lit found
      (by rwa [counted])
  · -- The outputs take the values that are wanted for them.
    obtain ⟨m', agree, all⟩ := emitted'.exists_exact below m
    have models := (emitted'.models_iff m').mpr (Node.models_of_exact emitted'.encoded all)
    refine ⟨m', agree, models, fun holds => ?_⟩
    rw [← counted]
    exact (all _ (Node.self_mem_nodes _) k lit found).mp holds

theorem Search.Counting.extend (counting : search.Counting inputs base)
    (taken : search.totalizer.clauses = []) (m : Assignment) :
    ∃ m', AgreeBelow base m m' ∧ Models m' search.clauses := by
  obtain ⟨below, gates, emitted⟩ := counting
  obtain ⟨m', agree, all⟩ := emitted.exists_exact below m
  refine ⟨m', agree, ?_⟩
  have models := (emitted.models_iff m').mpr (Node.models_of_exact emitted.encoded all)
  rwa [taken, List.append_nil] at models

end

end MaxSatSolver

end Nixie.Opt
