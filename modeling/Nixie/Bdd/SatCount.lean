import Mathlib.Algebra.BigOperators.Ring.Finset
import Mathlib.Algebra.Order.BigOperators.Group.Finset
import Mathlib.Algebra.BigOperators.Group.Finset.Powerset
import Nixie.Bdd.ManagerRuns

/-! Counting satisfying assignments: which levels are skipped, and which of them are counted. -/

namespace Nixie

open Option Finset

namespace DecisionTree

/-- The last variable that is decided under an assignment. -/
def last (σ : Nat → Bool) : Nat → DecisionTree Nat → Nat
  | var, leaf _ => var
  | _, branch var low high => if σ var then high.last σ var else low.last σ var

/-- All variables of a tree are below a bound. -/
def Within (bound : Nat) : DecisionTree Nat → Prop
  | leaf _ => True
  | branch var low high => var < bound ∧ low.Within bound ∧ high.Within bound

/-- How many levels are skipped from a variable to a tree that comes after it. -/
def gap (var : Nat) : DecisionTree Nat → Nat
  | leaf _ => 0
  | branch first _ _ => first - var - 1

/-- Counts assignments of the levels from the first variable on, unless a path ends early. -/
def count : DecisionTree Nat → Nat
  | leaf value => if value then 1 else 0
  | branch var low high => low.count * 2 ^ low.gap var + high.count * 2 ^ high.gap var

/-- The set of variables that are true, as an assignment. -/
def assignment (s : Finset Nat) : Nat → Bool := fun var => decide (var ∈ s)

/-- A power of two for the last decision of a satisfying assignment. -/
def weight (t : DecisionTree Nat) (var : Nat) (s : Finset Nat) : Nat :=
  if t.eval (assignment s) then 2 ^ t.last (assignment s) var else 0

variable {var : Nat}

variable {t : DecisionTree Nat}

theorem Ordered.last_congr (ordered : t.Ordered)
    (after : t.After var) {σ σ' : Nat → Bool} (agree : ∀ other, var < other → σ other = σ' other)
    (start : Nat) : t.last σ start = t.last σ' start := by
  induction t generalizing var start with
  | leaf value => rfl
  | branch first low high ihLow ihHigh =>
    obtain ⟨afterLow, afterHigh, orderedLow, orderedHigh⟩ := ordered
    have less : var < first := after
    have agree' : ∀ other, first < other → σ other = σ' other :=
      fun other more => agree other (less.trans more)
    rw [last, last, agree first less, ihLow orderedLow afterLow agree',
      ihHigh orderedHigh afterHigh agree']

theorem Ordered.weight_insert (ordered : t.Ordered)
    (after : t.After var) (start : Nat) (s : Finset Nat) :
    t.weight start (insert var s) = t.weight start s := by
  have agree : ∀ other, var < other → assignment (insert var s) other = assignment s other :=
    fun other more => by simp [assignment, more.ne']
  rw [weight, weight, ordered.eval_congr after agree, ordered.last_congr after agree]

theorem two_mul_sum_powerset {v : Nat} {u : Finset Nat} (fresh : v ∉ u) {f : Finset Nat → Nat}
    (same : ∀ s, f (insert v s) = f s) :
    ∑ s ∈ (insert v u).powerset, f s = 2 * ∑ s ∈ u.powerset, f s := by
  rw [sum_powerset_insert fresh, sum_congr rfl fun s _ => same s, two_mul]

/-- The weights of all assignments of the variables below a bound. -/
def total (t : DecisionTree Nat) (bound var : Nat) : Nat :=
  ∑ s ∈ (Finset.range bound).powerset, t.weight var s

variable {bound : Nat}

theorem two_mul_total (start : Nat) {low high : DecisionTree Nat}
    (ordered : (branch var low high).Ordered) (within : var < bound) :
    2 * (branch var low high).total bound start = low.total bound var + high.total bound var := by
  obtain ⟨afterLow, afterHigh, orderedLow, orderedHigh⟩ := ordered
  have split : range bound = insert var ((range bound).erase var) :=
    (insert_erase (mem_range.mpr within)).symm
  have fresh : var ∉ (range bound).erase var := notMem_erase _ _
  rw [total, total, total, split, two_mul_sum_powerset fresh (orderedLow.weight_insert afterLow var),
    two_mul_sum_powerset fresh (orderedHigh.weight_insert afterHigh var), ← mul_add,
    sum_powerset_insert fresh]
  -- Without the variable it is false, and with it, it is true.
  congr 2
  · refine sum_congr rfl fun s mem => ?_
    have outside : assignment s var = false :=
      decide_eq_false fun lies => fresh (mem_powerset.mp mem lies)
    simp [weight, eval, last, outside]
  · refine sum_congr rfl fun s mem => ?_
    have lies : assignment (insert var s) var = true := decide_eq_true (mem_insert_self _ _)
    rw [← orderedHigh.weight_insert afterHigh var s]
    simp [weight, eval, last, lies]

theorem count_mul (ordered : t.Ordered) (within : t.Within bound) (after : t.After var) :
    t.count * 2 ^ t.gap var * 2 ^ (bound + var) = t.total bound var := by
  induction t generalizing var with
  | leaf value =>
    cases value with
    | false => simp [count, total, weight, eval]
    | true => simp [count, gap, total, weight, eval, last, card_powerset, pow_add]
  | branch first low high ihLow ihHigh =>
    obtain ⟨bounded, withinLow, withinHigh⟩ := within
    have less : var < first := after
    have half := two_mul_total var ordered bounded
    obtain ⟨afterLow, afterHigh, orderedLow, orderedHigh⟩ := ordered
    rw [← ihLow orderedLow withinLow afterLow, ← ihHigh orderedHigh withinHigh afterHigh,
      ← add_mul] at half
    refine Nat.eq_of_mul_eq_mul_left (by decide : 0 < 2) (Eq.trans ?_ half.symm)
    rw [count, gap]
    have exponent : 2 ^ (bound + first) = 2 * (2 ^ (first - var - 1) * 2 ^ (bound + var)) := by
      rw [← pow_add, ← pow_succ']
      congr 1
      omega
    rw [exponent]
    ring

theorem count_branch (start : Nat) {low high : DecisionTree Nat}
    (ordered : (branch var low high).Ordered) (within : (branch var low high).Within bound) :
    (branch var low high).count * 2 ^ (bound + var) =
      2 * (branch var low high).total bound start := by
  obtain ⟨bounded, withinLow, withinHigh⟩ := within
  rw [two_mul_total start ordered bounded, ← count_mul ordered.2.2.1 withinLow ordered.1,
    ← count_mul ordered.2.2.2 withinHigh ordered.2.1, count, add_mul]

theorem Within.last_lt (within : t.Within bound)
    (σ : Nat → Bool) {start : Nat} (less : start < bound) : t.last σ start < bound := by
  induction t generalizing start with
  | leaf value => exact less
  | branch var low high ihLow ihHigh =>
    obtain ⟨bounded, withinLow, withinHigh⟩ := within
    rw [last]
    split
    · exact ihHigh withinHigh bounded
    · exact ihLow withinLow bounded

theorem Within.two_mul_total_le (within : t.Within bound)
    {start : Nat} (less : start < bound) : 2 * t.total bound start ≤ 2 ^ (bound + bound) := by
  have each : ∀ s ∈ (range bound).powerset, t.weight start s ≤ 2 ^ (bound - 1) := by
    intro s _
    rw [weight]
    split
    · exact Nat.pow_le_pow_right (by decide) (Nat.le_sub_one_of_lt (within.last_lt _ less))
    · exact Nat.zero_le _
  have sum := sum_le_card_nsmul _ _ _ each
  rw [card_powerset, card_range, nsmul_eq_mul, Nat.cast_id] at sum
  calc 2 * t.total bound start ≤ 2 * (2 ^ bound * 2 ^ (bound - 1)) := Nat.mul_le_mul_left 2 sum
    _ = 2 ^ (bound + bound) := by
      rw [← pow_add, ← pow_succ']
      congr 1
      omega

theorem count_mul_gap_le (ordered : t.Ordered)
    (within : t.Within bound) (after : t.After var) (bounded : var < bound) :
    t.count * 2 ^ t.gap var ≤ 2 ^ (bound - 1 - var) := by
  refine Nat.le_of_mul_le_mul_right (c := 2 ^ (bound + var)) ?_ (Nat.two_pow_pos _)
  refine Nat.le_of_mul_le_mul_left ?_ (by decide : 0 < 2)
  rw [count_mul ordered within after, ← pow_add, ← pow_succ']
  refine (within.two_mul_total_le bounded).trans (Nat.pow_le_pow_right (by decide) ?_)
  omega

end DecisionTree

namespace Bdd.BddManager

open DecisionTree

/-- A word of 64 bits; a larger number is an overflow. -/
def word64 (n : Nat) : Option Nat := if n < 2 ^ 64 then some n else none

def oneShl (shift : Nat) : Option Nat := if shift < 64 then some (2 ^ shift) else none

/-- The factor for the levels that are skipped from a variable to a branch. -/
def levelMult (m : BddManager) (var : VarId) (branch : NodeId) : Option Nat :=
  if branch ≤ bddTrue then some 1
  else match m.nodes[branch]? with
    | none => none
    | some n => if n.var ≤ var then none else oneShl (n.var - var - 1)

abbrev CountCache := NodeId → Option Nat

def satCountRec (m : BddManager) : Nat → NodeId → CountCache → Option (Nat × CountCache)
  | 0, _, _ => none
  | depth + 1, node, cache =>
    if node = bddFalse then some (0, cache)
    else if node = bddTrue then some (1, cache)
    else match cache node with
      | some count => some (count, cache)
      | none => do
        let n ← m.nodes[node]?
        let (lowCount, cache) ← m.satCountRec depth n.low cache
        let (highCount, cache) ← m.satCountRec depth n.high cache
        let lowMult ← m.levelMult n.var n.low
        let highMult ← m.levelMult n.var n.high
        let lows ← word64 (lowCount * lowMult)
        let highs ← word64 (highCount * highMult)
        let count ← word64 (lows + highs)
        some (count, Function.update cache node (some count))

/-- The number of levels up to the variable of a node. -/
def maxVarLevels (m : BddManager) (node : NodeId) : Option Nat :=
  if node ≤ bddTrue then some 0 else m.nodes[node]?.map fun n => n.var + 1

def satCount (m : BddManager) (node : NodeId) (numVars : Nat) : Option Nat := do
  let (count, _) ← m.satCountRec (node + 1) node fun _ => none
  let levels ← m.maxVarLevels node
  let mult ← oneShl (numVars - levels)
  word64 (count * mult)

inductive Decides (m : BddManager) : NodeId → VarId → Prop
  | here {id : NodeId} {n : BddNode} (internal : 2 ≤ id) (found : m.nodes[id]? = some n) :
    Decides m id n.var
  | low {id : NodeId} {n : BddNode} {var : VarId} (internal : 2 ≤ id)
    (found : m.nodes[id]? = some n) (below : Decides m n.low var) : Decides m id var
  | high {id : NodeId} {n : BddNode} {var : VarId} (internal : 2 ≤ id)
    (found : m.nodes[id]? = some n) (below : Decides m n.high var) : Decides m id var

/-- The assignments that satisfy a node, as sets of variables that are true. -/
def models (m : BddManager) (node : NodeId) (numVars : Nat) : Finset (Finset VarId) :=
  (Finset.range numVars).powerset.filter fun s => m.eval node (assignment s) = some true

/-- The last variable that is decided on the path of an assignment, within a depth. -/
def lastWithin (m : BddManager) (σ : VarId → Bool) : Nat → VarId → NodeId → VarId
  | 0, var, _ => var
  | depth + 1, var, node =>
    if node ≤ bddTrue then var
    else match m.nodes[node]? with
      | none => var
      | some n =>
        if σ n.var then m.lastWithin σ depth n.var n.high else m.lastWithin σ depth n.var n.low

/-- The last variable that a node decides under an assignment. -/
def lastVar (m : BddManager) (node : NodeId) (s : Finset VarId) : VarId :=
  m.lastWithin (assignment s) (node + 1) 0 node

variable {m : BddManager}

variable {tree : DecisionTree VarId}

theorem Decides.within {id : NodeId}
    (denotes : m.Denotes id tree) (below : ∀ var, m.Decides id var → var < bound) :
    tree.Within bound := by
  induction denotes with
  | ff | tt => exact trivial
  | node internal found _ _ ihLow ihHigh =>
    exact ⟨below _ (.here internal found), ihLow fun var decides => below var (.low internal found decides),
      ihHigh fun var decides => below var (.high internal found decides)⟩

/-- The counts that are kept are those of the trees. -/
def CountsRight (m : BddManager) (cache : CountCache) : Prop :=
  ∀ id count, cache id = some count → ∃ tree, m.Denotes id tree ∧ count = tree.count

theorem not_le_bddTrue {id : NodeId} (internal : 2 ≤ id) : ¬id ≤ bddTrue := Nat.not_le.mpr internal

theorem word64_eq {n : Nat} (small : n < 2 ^ 64) : word64 n = some n := if_pos small

theorem oneShl_eq {shift : Nat} (small : shift < 64) : oneShl shift = some (2 ^ shift) :=
  if_pos small

theorem levelMult_eq (small : bound < 64) {branch : NodeId}
    (denotes : m.Denotes branch tree) (after : tree.After var)
    (within : tree.Within bound) : m.levelMult var branch = some (2 ^ tree.gap var) := by
  cases denotes with
  | ff | tt => rfl
  | node internal found =>
    have less : var < _ := after
    rw [levelMult, if_neg (not_le_bddTrue internal), found]
    simp only
    rw [if_neg (Nat.not_le.mpr less)]
    refine oneShl_eq ?_
    have bounded := within.1
    omega

theorem Sound.satCountRec_eq (sound : m.Sound) (small : bound < 64) {id : NodeId}
    (denotes : m.Denotes id tree) (within : tree.Within bound)
    {depth : Nat} (deep : id < depth) (cache : CountCache) (right : m.CountsRight cache) :
    ∃ cache', m.satCountRec depth id cache = some (tree.count, cache') ∧ m.CountsRight cache' := by
  induction denotes generalizing depth cache with
  | ff =>
    obtain ⟨depth, rfl⟩ := Nat.exists_eq_add_one_of_ne_zero (Nat.ne_of_gt deep)
    exact ⟨cache, rfl, right⟩
  | tt =>
    obtain ⟨depth, rfl⟩ := Nat.exists_eq_add_one_of_ne_zero (Nat.ne_zero_of_lt deep)
    exact ⟨cache, rfl, right⟩
  | @node id low high var left' right' internal found denotesLow denotesHigh ihLow ihHigh =>
    obtain ⟨less, less'⟩ := sound.canonical.earlier internal found
    obtain ⟨notFalse, notTrue⟩ := ne_constants internal
    have denotes := NodeTable.Denotes.node internal found denotesLow denotesHigh
    have ordered := sound.canonical.ordered denotes
    obtain ⟨bounded, withinLow, withinHigh⟩ := within
    obtain ⟨depth, rfl⟩ := Nat.exists_eq_add_one_of_ne_zero (Nat.ne_zero_of_lt deep)
    rw [satCountRec, if_neg notFalse, if_neg notTrue]
    cases known : cache id with
    | some count =>
      obtain ⟨tree, denotes', rfl⟩ := right id count known
      obtain rfl := denotes.unique denotes'
      exact ⟨cache, rfl, right⟩
    | none =>
      obtain ⟨cache₁, eq₁, right₁⟩ := ihLow withinLow
        (Nat.lt_of_lt_of_le less (Nat.le_of_lt_succ deep)) cache right
      obtain ⟨cache₂, eq₂, right₂⟩ := ihHigh withinHigh
        (Nat.lt_of_lt_of_le less' (Nat.le_of_lt_succ deep)) cache₁ right₁
      -- Both products are at most half of a word, and their sum is a word.
      have lows := count_mul_gap_le ordered.2.2.1 withinLow ordered.1 bounded
      have highs := count_mul_gap_le ordered.2.2.2 withinHigh ordered.2.1 bounded
      have half : 2 ^ (bound - 1 - var) ≤ 2 ^ 62 := Nat.pow_le_pow_right (by decide) (by omega)
      refine ⟨Function.update cache₂ id (some (branch var left' right').count), ?_, ?_⟩
      · simp only [found, eq₁, eq₂, levelMult_eq small denotesLow ordered.1 withinLow,
          levelMult_eq small denotesHigh ordered.2.1 withinHigh, bind_eq_bind,
          bind_some]
        rw [word64_eq (by omega), bind_some, word64_eq (by omega), bind_some,
          word64_eq (by omega), bind_some]
        rfl
      · intro other count stored
        rcases of_update stored with ⟨rfl, rfl⟩ | old
        · exact ⟨_, denotes, rfl⟩
        · exact right₂ other count old

theorem Sound.lastWithin_eq (sound : m.Sound) {id : NodeId}
    (denotes : m.Denotes id tree) (σ : VarId → Bool) {depth : Nat} (deep : id < depth)
    (var : VarId) : m.lastWithin σ depth var id = tree.last σ var := by
  induction denotes generalizing depth var with
  | ff =>
    obtain ⟨depth, rfl⟩ := Nat.exists_eq_add_one_of_ne_zero (Nat.ne_of_gt deep)
    rfl
  | tt =>
    obtain ⟨depth, rfl⟩ := Nat.exists_eq_add_one_of_ne_zero (Nat.ne_zero_of_lt deep)
    rfl
  | node internal found _ _ ihLow ihHigh =>
    obtain ⟨less, less'⟩ := sound.canonical.earlier internal found
    obtain ⟨depth, rfl⟩ := Nat.exists_eq_add_one_of_ne_zero (Nat.ne_zero_of_lt deep)
    rw [lastWithin, if_neg (not_le_bddTrue internal), found]
    simp only
    rw [ihLow (Nat.lt_of_lt_of_le less (Nat.le_of_lt_succ deep)),
      ihHigh (Nat.lt_of_lt_of_le less' (Nat.le_of_lt_succ deep)), last]

theorem two_pow_levels {n v : Nat} (less : v < n) :
    2 ^ (n + v) = 2 * (2 ^ v * 2 ^ v) * 2 ^ (n - (v + 1)) := by
  rw [← pow_add, ← pow_succ', ← pow_add]
  congr 1
  omega

theorem Sound.sum_models (sound : m.Sound) {id : NodeId}
    (denotes : m.Denotes id tree) (numVars : Nat) :
    ∑ s ∈ m.models id numVars, 2 ^ m.lastVar id s = tree.total numVars 0 := by
  rw [models, sum_filter, total]
  refine sum_congr rfl fun s _ => ?_
  rw [sound.eval_eq denotes, lastVar, sound.lastWithin_eq denotes _ (Nat.lt_succ_self id), weight]
  cases tree.eval (assignment s) <;> simp

/--
The count is right exactly when the last decisions make up for the levels above the first one.

That is, over the satisfying assignments the mean of two to the power of the last decided variable
is four to the power of the first one.
-/
theorem Reachable.satCount_eq_iff (reachable : m.Reachable) {node : NodeId} (valid : m.Valid node)
    {numVars : Nat} (small : numVars < 64) (below : ∀ var, m.Decides node var → var < numVars) :
    m.satCount node numVars = some (m.models node numVars).card ↔
      ∀ n, 2 ≤ node → m.nodes[node]? = some n → ∑ s ∈ m.models node numVars, 2 ^ m.lastVar node s =
          4 ^ n.var * (m.models node numVars).card := by
  have sound := reachable.sound
  obtain ⟨tree, denotes⟩ := sound.canonical.exists_denotes valid
  have within := Decides.within denotes below
  obtain ⟨cache, counted, -⟩ := sound.satCountRec_eq small denotes within (Nat.lt_succ_self node)
    (fun _ => none) fun _ _ stored => nomatch stored
  have sum := sound.sum_models denotes numVars
  have card_le : (m.models node numVars).card ≤ 2 ^ numVars := by
    refine (Finset.card_filter_le _ _).trans_eq ?_
    rw [Finset.card_powerset, Finset.card_range]
  have card_lt : (m.models node numVars).card < 2 ^ 64 :=
    Nat.lt_of_le_of_lt card_le (Nat.pow_lt_pow_right (by decide) small)
  have counted' {levels : Nat} (at_ : m.maxVarLevels node = some levels) :
      m.satCount node numVars = word64 (tree.count * 2 ^ (numVars - levels)) := by
    rw [satCount, counted]
    simp only [bind_eq_bind, bind_some]
    rw [at_, bind_some, oneShl_eq (Nat.lt_of_le_of_lt (Nat.sub_le _ _) small), bind_some]
  cases denotes with
  | ff =>
    have none : m.models 0 numVars = ∅ :=
      Finset.filter_false_of_mem fun s _ => by rw [sound.eval_eq .ff]; exact fun eq => nomatch eq
    rw [counted' rfl, none]
    exact iff_of_true (congrArg word64 (Nat.zero_mul _)) fun n internal => absurd internal (by decide)
  | tt =>
    have all : m.models 1 numVars = (Finset.range numVars).powerset :=
      Finset.filter_true_of_mem fun s _ => sound.eval_eq .tt _
    rw [counted' rfl, all, Finset.card_powerset, Finset.card_range]
    refine iff_of_true ?_ fun n internal => absurd internal (by decide)
    rw [Nat.sub_zero, show (leaf true).count = 1 from rfl, Nat.one_mul,
      word64_eq (Nat.pow_lt_pow_right (by decide) small)]
  | @node _ low high var left right internal found denotesLow denotesHigh =>
    have levels : m.maxVarLevels node = some (var + 1) := by
      rw [maxVarLevels, if_neg (not_le_bddTrue internal), found]
      rfl
    have ordered := sound.canonical.ordered (.node internal found denotesLow denotesHigh)
    have twice := count_branch 0 ordered within
    have bounded : var < numVars := within.1
    rw [← sum] at twice
    generalize (branch var left right).count = count at counted' twice
    -- The count of the code, times four to the power of the first variable, is the weight.
    have weight : 4 ^ var * (count * 2 ^ (numVars - (var + 1))) =
        ∑ s ∈ m.models node numVars, 2 ^ m.lastVar node s := by
      refine Nat.eq_of_mul_eq_mul_left (by decide : 0 < 2) (Eq.trans ?_ twice)
      rw [two_pow_levels bounded, show (4 : Nat) = 2 * 2 from rfl, mul_pow]
      ring
    have alike : m.satCount node numVars = some (m.models node numVars).card ↔
        count * 2 ^ (numVars - (var + 1)) = (m.models node numVars).card := by
      rw [counted' levels, word64]
      constructor
      · intro eq
        split at eq
        · exact some.inj eq
        · cases eq
      · intro eq
        rw [eq, if_pos card_lt]
    rw [alike]
    constructor
    · intro eq n _ found'
      rw [found] at found'
      obtain rfl := some.inj found'
      rw [← weight, eq]
    · intro each
      have eq := each _ internal found
      rw [← weight] at eq
      exact Nat.eq_of_mul_eq_mul_left (Nat.pow_pos (by decide)) eq

theorem eq_of_decides_variable {v var : VarId} (decides : (new.variable_ v).2.Decides 2 var) :
    var = v := by
  have constant {id : NodeId} (small : id < 2) : ¬(new.variable_ v).2.Decides id var := by
    intro below
    cases below with
    | here internal | low internal | high internal => exact absurd internal (Nat.not_le.mpr small)
  cases decides with
  | here _ found => exact (congrArg BddNode.var (some.inj found)).symm
  | low _ found below =>
    obtain rfl := some.inj found
    exact absurd below (constant Nat.zero_lt_two)
  | high _ found below =>
    obtain rfl := some.inj found
    exact absurd below (constant Nat.one_lt_two)

theorem reachable_variable (var : VarId) : (new.variable_ var).2.Reachable :=
  @Reachable.step _ _ (.variable_ var) _ .new (fun _ mem => nomatch mem) rfl

/-- The first variable is counted right among two of them. -/
theorem first_satCount : (new.variable_ 0).2.satCount 2 2 =
    some ((new.variable_ 0).2.models 2 2).card := by
  have below (var : VarId) (decides : (new.variable_ 0).2.Decides 2 var) : var < 2 := by
    rw [eq_of_decides_variable decides]
    decide
  refine (Reachable.satCount_eq_iff (reachable_variable 0) (Nat.lt_succ_self 2)
    (by decide) below).mpr ?_
  intro n _ found
  obtain rfl := some.inj found
  decide +kernel

/-- The second variable holds in two of the four assignments, and one is counted. -/
theorem second_satCount_ne : (new.variable_ 1).2.Reachable ∧ (new.variable_ 1).2.Valid 2 ∧
    (∀ var, (new.variable_ 1).2.Decides 2 var → var < 2) ∧
    (new.variable_ 1).2.satCount 2 2 = some 1 ∧
    ((new.variable_ 1).2.models 2 2).card = 2 := by
  refine ⟨reachable_variable 1, Nat.lt_succ_self 2, fun var decides => ?_, by decide +kernel,
    by decide +kernel⟩
  rw [eq_of_decides_variable decides]
  decide

end Bdd.BddManager

end Nixie
