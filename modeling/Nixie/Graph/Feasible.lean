import Mathlib.Algebra.Order.Field.Basic
import Mathlib.Algebra.Order.Monoid.Prod
import Mathlib.Tactic.FieldSimp
import Mathlib.Tactic.Linarith
import Nixie.Graph.Walk

/-! Finitely many weighted edges without a negative cycle have a potential, also a strict one. -/

namespace Nixie.Graph

variable {V W : Type*}

def listEdge (edges : List (V × V × W)) (a b : V) (w : W) : Prop := (a, b, w) ∈ edges

theorem Walk.map {X : Type*} [AddZeroClass W] [AddZeroClass X] {edge : V → V → W → Prop}
    {image : V → V → X → Prop} (f : W →+ X) (maps : ∀ a b w, edge a b w → image a b (f w)) {a b : V}
    {vertices : List V} {w : W} (walk : Walk edge a vertices b w) :
    Walk image a vertices b (f w) := by
  -- Each edge is mapped, and the weights add up.
  induction walk with
  | nil =>
    rw [map_zero]
    exact .nil _
  | cons first _ ih =>
    rw [map_add]
    exact .cons (maps _ _ _ first) ih

variable [AddCommGroup W] [LinearOrder W] {edges : List (V × V × W)}

theorem NoNegativeCycle.mono {edge larger : V → V → W → Prop} (sound : NoNegativeCycle larger)
    (more : ∀ a b w, edge a b w → larger a b w) : NoNegativeCycle edge :=
  fun _ _ _ cycle => sound _ _ _ (cycle.mono more)

variable [IsOrderedAddMonoid W]

theorem exists_closure (sound : NoNegativeCycle (listEdge edges)) :
    ∃ d, Closure (listEdge edges) d := by
  classical
  -- By induction on the edges, one relaxation for each of them.
  induction edges with
  | nil =>
    have none_ : listEdge ([] : List (V × V × W)) = fun _ _ _ => False := by
      funext a b w
      exact propext ⟨fun mem => (nomatch mem), fun absurd_ => absurd_.elim⟩
    rw [none_]
    exact ⟨_, closure_empty⟩
  | cons edge rest ih =>
    obtain ⟨s, t, k⟩ := edge
    have same : listEdge ((s, t, k) :: rest) = insertEdge (listEdge rest) s t k := by
      funext a b w
      unfold listEdge insertEdge
      rw [List.mem_cons, Prod.mk.injEq, Prod.mk.injEq]
      exact propext or_comm
    rw [same] at sound ⊢
    have before : NoNegativeCycle (listEdge rest) := sound.mono fun _ _ _ => .inl
    obtain ⟨d, closure⟩ := ih before
    refine ⟨relax d s t k, closure.insert ?_⟩
    by_contra negative
    exact (closure.insert_negative before).mpr (not_le.mp negative) sound

theorem Closure.exists_least {edge : V → V → W → Prop} {d : V → V → WithTop W}
    (closure : Closure edge d) (v : V) : ∀ sources : List V, ∃ x : W,
      (∀ s ∈ sources, (x : WithTop W) ≤ d s v) ∧ ∃ s ∈ v :: sources, d s v = x := by
  intro sources
  induction sources with
  | nil =>
    -- The distance of a vertex to itself is at most zero.
    have self := closure.self_le v
    cases same : d v v with
    | top =>
      rw [same] at self
      exact absurd self (by simp)
    | coe x => exact ⟨x, fun _ mem => (nomatch mem), v, .head _, same⟩
  | cons s rest ih =>
    obtain ⟨x, below, t, mem, value⟩ := ih
    by_cases lower : d s v < x
    · -- The new vertex is nearer.
      cases same : d s v with
      | top =>
        rw [same] at lower
        exact absurd lower (by simp)
      | coe y =>
        rw [same] at lower
        refine ⟨y, fun other lies => ?_, s, .tail _ (.head _), same⟩
        rcases List.mem_cons.mp lies with rfl | later
        · exact same.ge
        · exact lower.le.trans (below other later)
    · refine ⟨x, fun other lies => ?_, t, ?_, value⟩
      · rcases List.mem_cons.mp lies with rfl | later
        · exact not_lt.mp lower
        · exact below other later
      · rcases List.mem_cons.mp mem with rfl | later
        · exact .head _
        · exact .tail _ (.tail _ later)

theorem exists_potential (sound : NoNegativeCycle (listEdge edges)) :
    ∃ value, Potential (listEdge edges) value := by
  obtain ⟨d, closure⟩ := exists_closure sound
  -- A vertex is as far as from the nearest source of an edge.
  choose value below attained using fun v => closure.exists_least v (edges.map Prod.fst)
  refine ⟨value, fun a b w step => ?_⟩
  have source : a ∈ edges.map Prod.fst := List.mem_map_of_mem step
  obtain ⟨s, mem, nearest⟩ := attained a
  have lies : s ∈ edges.map Prod.fst := by
    rcases List.mem_cons.mp mem with rfl | lies
    · exact source
    · exact lies
  have bound := calc (value b : WithTop W) ≤ d s b := below b s lies
    _ ≤ d s a + d a b := closure.triangle s a b
    _ ≤ value a + w := add_le_add nearest.le (closure.edge_le step)
  rwa [← WithTop.coe_add, WithTop.coe_le_coe] at bound

section

variable {K : Type*} [Field K] [LinearOrder K] [IsStrictOrderedRing K]

/-- A value that keeps every bound, and those with a negative second weight strictly. -/
def Strict (edges : List (V × V × (K ×ₗ Int))) (value : V → K) : Prop :=
  ∀ a b w, (a, b, w) ∈ edges → value b ≤ value a + (ofLex w).1 ∧
    ((ofLex w).2 < 0 → value b < value a + (ofLex w).1)

theorem Potential.exists_strict {edges : List (V × V × (K ×ₗ Int))} {value : V → K ×ₗ Int}
    (potential : Potential (listEdge edges) value)
    (sign : ∀ a b w, (a, b, w) ∈ edges → (ofLex w).2 ≤ 0) : ∃ value, Strict edges value := by
  -- One edge after the other bounds the multiples that are small enough.
  suffices small : ∃ limit : K, 0 < limit ∧ ∀ ε, 0 < ε → ε ≤ limit →
      Strict edges fun v => (ofLex (value v)).1 + ε * (ofLex (value v)).2 by
    obtain ⟨limit, pos, strict⟩ := small
    exact ⟨_, strict limit pos le_rfl⟩
  induction edges with
  | nil => exact ⟨1, zero_lt_one, fun _ _ _ _ _ _ mem => (nomatch mem)⟩
  | cons edge rest ih =>
    obtain ⟨s, t, k⟩ := edge
    obtain ⟨limit, pos, strict⟩ := ih (fun a b w step => potential a b w (.tail _ step))
      fun a b w step => sign a b w (.tail _ step)
    have falling := sign s t k (.head _)
    have bound := Prod.Lex.le_iff.mp (potential s t k (.head _))
    obtain ⟨limit', pos', own⟩ : ∃ limit' : K, 0 < limit' ∧ ∀ ε, 0 < ε → ε ≤ limit' →
        (ofLex (value t)).1 + ε * (ofLex (value t)).2 ≤
            (ofLex (value s)).1 + ε * (ofLex (value s)).2 + (ofLex k).1 ∧
          ((ofLex k).2 < 0 → (ofLex (value t)).1 + ε * (ofLex (value t)).2 <
            (ofLex (value s)).1 + ε * (ofLex (value s)).2 + (ofLex k).1) := by
      rw [ofLex_add, Prod.fst_add, Prod.snd_add] at bound
      generalize (ofLex (value t)).1 = p, (ofLex (value t)).2 = q, (ofLex (value s)).1 = r,
        (ofLex (value s)).2 = m at bound ⊢
      rcases bound with slack | ⟨tie, second⟩
      · -- There is room between the first components.
        have room : 0 < r + (ofLex k).1 - p := sub_pos.mpr slack
        have scale : (0 : K) < |(q : K) - m| + 1 := by positivity
        refine ⟨(r + (ofLex k).1 - p) / (|(q : K) - m| + 1), div_pos room scale, fun ε small below => ?_⟩
        have few := (le_div_iff₀ scale).mp below
        have part : ε * ((q : K) - m) ≤ ε * |(q : K) - m| :=
          mul_le_mul_of_nonneg_left (le_abs_self _) small.le
        have strictly : p + ε * q < r + ε * m + (ofLex k).1 := by linarith
        exact ⟨strictly.le, fun _ => strictly⟩
      · -- The second components decide, whatever the multiple is.
        refine ⟨1, zero_lt_one, fun ε small _ => ⟨?_, fun sinks => ?_⟩⟩
        · have less : (q : K) ≤ m := by exact_mod_cast second.trans (by omega)
          have scaled := mul_le_mul_of_nonneg_left less small.le
          linarith
        · have less : (q : K) < m := by exact_mod_cast second.trans_lt (by omega)
          have scaled := mul_lt_mul_of_pos_left less small
          linarith
    refine ⟨min limit limit', lt_min pos pos', fun ε small below => ?_⟩
    intro a b w mem
    rcases List.mem_cons.mp mem with same | later
    · cases same
      exact own ε small (below.trans (min_le_right _ _))
    · exact strict ε small (below.trans (min_le_left _ _)) a b w later

end

end Nixie.Graph
