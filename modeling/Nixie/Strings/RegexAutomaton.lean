import Nixie.Strings.DerivativeCorrect

/-! Automata whose states are expressions, built letter by letter. -/

namespace Nixie.Strings

open List

/-- Derivatives found earlier. -/
structure DerivativeCache where
  cache : List ((Regex × Char) × Regex) := []

def DerivativeCache.derivative (self : DerivativeCache) (r : Regex) (c : Char) :
    DerivativeCache × Regex :=
  match self.cache.find? fun entry => entry.1.1.eq r && entry.1.2 == c with
  | some entry => (self, entry.2)
  | none => (⟨((r, c), r.derivative c) :: self.cache⟩, r.derivative c)

/-- A state stands for what is left of the expression. -/
structure AutomatonState where
  regex : Regex
  id : Nat
  accepting : Bool

/-- The states found so far, their rows of transitions, and what was looked up. -/
structure RegexAutomaton where
  states : List AutomatonState
  transitions : List (List (Char × Char × Nat))
  regexToState : List (Regex × Nat)
  initial : Nat
  cache : DerivativeCache

namespace RegexAutomaton

/-- The automaton with the state of the expression alone. -/
def new (regex : Regex) : RegexAutomaton where
  states := [⟨regex, 0, regex.nullable⟩]
  transitions := [[]]
  regexToState := [(regex, 0)]
  initial := 0
  cache := {}

def getOrCreateState (self : RegexAutomaton) (regex : Regex) : RegexAutomaton × Nat :=
  match self.regexToState.find? fun entry => entry.1.eq regex with
  | some entry => (self, entry.2)
  | none =>
    ({ self with
        states := self.states ++ [⟨regex, self.states.length, regex.nullable⟩]
        transitions := self.transitions ++ [[]]
        regexToState := (regex, self.states.length) :: self.regexToState },
      self.states.length)

def pushTransition (self : RegexAutomaton) (state : Nat) (c : Char) (target : Nat) :
    RegexAutomaton :=
  { self with transitions := self.transitions.modify state (· ++ [(c, c, target)]) }

/-- The state after a letter; no answer where the state does not exist. -/
def transition (self : RegexAutomaton) (state : Nat) (c : Char) : Option (RegexAutomaton × Nat) := do
  let row ← self.transitions[state]?
  match row.find? fun (lo, hi, _) => lo ≤ c ∧ c ≤ hi with
  | some (_, _, target) => some (self, target)
  | none =>
    let regex := (← self.states[state]?).regex
    let (cache, derivative) := self.cache.derivative regex c
    let (self, target) := { self with cache }.getOrCreateState
      (if derivative.isEmpty then .none else derivative)
    some (self.pushTransition state c target, target)

/-- Reads letters, and stops early where nothing can be accepted any more. -/
def acceptsFrom (self : RegexAutomaton) (current : Nat) : List Char → Option (RegexAutomaton × Bool)
  | [] => do some (self, (← self.states[current]?).accepting)
  | c :: cs => do
    let (self, current) ← self.transition current c
    if (← self.states[current]?).regex.isEmpty then some (self, false)
    else self.acceptsFrom current cs

def accepts (self : RegexAutomaton) (s : String) : Option (RegexAutomaton × Bool) :=
  self.acceptsFrom self.initial s.toList

def languageAt (self : RegexAutomaton) (state : Nat) : Option (Language Char) :=
  self.states[state]?.map fun s => s.regex.language

/-- States know the empty word, and everything kept leads to the right language. -/
structure Represents (automaton : RegexAutomaton) (L : Language Char) : Prop where
  initial : automaton.languageAt automaton.initial = some L
  states : ∀ s ∈ automaton.states, s.regex.Valid ∧ s.accepting = s.regex.nullable
  rows : automaton.transitions.length = automaton.states.length
  named : ∀ entry ∈ automaton.regexToState, automaton.languageAt entry.2 = some entry.1.language
  moves : ∀ state row, automaton.transitions[state]? = some row → ∀ move ∈ row, ∀ c,
    move.1 ≤ c → c ≤ move.2.1 → automaton.languageAt move.2.2 = (automaton.languageAt state).map (after c)
  cached : ∀ entry ∈ automaton.cache.cache, entry.2.Denotes (after entry.1.2 entry.1.1.language)

variable {self next : RegexAutomaton} {L M : Language Char} {state target : Nat} {c : Char}

theorem represents_new {regex : Regex} (valid : regex.Valid) :
    (new regex).Represents regex.language where
  initial := rfl
  states := by
    intro s mem
    obtain rfl := mem_singleton.mp mem
    exact ⟨valid, rfl⟩
  rows := rfl
  named := by
    intro entry mem
    obtain rfl := mem_singleton.mp mem
    rfl
  moves := by
    intro state row found move mem
    -- The only row is empty.
    obtain rfl : row = [] := mem_singleton.mp (mem_of_getElem? found)
    exact absurd mem not_mem_nil
  cached := fun _ mem => absurd mem not_mem_nil

theorem Represents.derivative (represents : self.Represents L) {r : Regex} (valid : r.Valid)
    (c : Char) :
    (self.cache.derivative r c).2.Denotes (after c r.language) ∧
      { self with cache := (self.cache.derivative r c).1 }.Represents L := by
  rw [DerivativeCache.derivative]
  split
  · rename_i entry found
    -- The key of the entry has the same language.
    have key := find?_some found
    obtain ⟨same, letter⟩ := Bool.and_eq_true_iff.mp key
    have denotes := represents.cached entry (mem_of_find?_eq_some found)
    rw [Regex.language_eq_of_eq same, eq_of_beq letter] at denotes
    exact ⟨denotes, represents⟩
  · refine ⟨valid.derivative c, ?_⟩
    exact { represents with
      cached := forall_mem_cons.mpr ⟨valid.derivative c, represents.cached⟩ }

theorem languageAt_append (found : self.languageAt state = some M) (s : AutomatonState) :
    (self.states ++ [s])[state]?.map (fun s => s.regex.language) = some M := by
  have lies : state < self.states.length := by
    apply Nat.lt_of_not_le
    intro outside
    rw [languageAt, getElem?_eq_none outside] at found
    cases found
  rw [getElem?_append_left lies]
  exact found

theorem initial_getOrCreateState (self : RegexAutomaton) (regex : Regex) :
    (self.getOrCreateState regex).1.initial = self.initial := by
  rw [getOrCreateState]
  split <;> rfl

theorem Represents.getOrCreateState (represents : self.Represents L) {regex : Regex}
    (valid : regex.Valid) :
    (self.getOrCreateState regex).1.Represents L ∧
      (self.getOrCreateState regex).1.languageAt (self.getOrCreateState regex).2 =
        some regex.language ∧
      ∀ state M, self.languageAt state = some M →
        (self.getOrCreateState regex).1.languageAt state = some M := by
  rw [RegexAutomaton.getOrCreateState]
  split
  · rename_i entry found
    have key := find?_some found
    have same := Regex.language_eq_of_eq key
    have named := represents.named entry (mem_of_find?_eq_some found)
    exact ⟨represents, named.trans (congrArg some same), fun _ _ found => found⟩
  · have last : (self.states ++ [⟨regex, self.states.length, regex.nullable⟩])[self.states.length]?.map
        (fun s => s.regex.language) = some regex.language := by
      rw [getElem?_concat_length]
      rfl
    refine ⟨?_, last, fun state M found => languageAt_append found _⟩
    exact {
      initial := languageAt_append represents.initial _
      states := by
        intro s mem
        rcases mem_append.mp mem with old | added
        · exact represents.states s old
        · obtain rfl := mem_singleton.mp added
          exact ⟨valid, rfl⟩
      rows := by rw [length_append, length_append, represents.rows]; rfl
      named := forall_mem_cons.mpr
        ⟨last, fun entry mem => languageAt_append (represents.named entry mem) _⟩
      moves := by
        intro state row found move mem c lower upper
        rcases Nat.lt_or_ge state self.transitions.length with old | added
        · rw [getElem?_append_left old] at found
          have lies : state < self.states.length := represents.rows ▸ old
          have leads := represents.moves state row found move mem c lower upper
          have known : self.languageAt state = some (self.states[state].regex.language) := by
            rw [languageAt, getElem?_eq_getElem lies]
            rfl
          rw [known] at leads
          rw [languageAt, languageAt, languageAt_append known, languageAt_append leads]
          rfl
        · -- The added row is empty.
          rw [getElem?_append_right added] at found
          obtain rfl : row = [] := mem_singleton.mp (mem_of_getElem? found)
          exact absurd mem not_mem_nil
      cached := represents.cached }

theorem Represents.pushTransition (represents : self.Represents L)
    (leads : self.languageAt target = (self.languageAt state).map (after c)) :
    (self.pushTransition state c target).Represents L :=
  { represents with
    rows := (length_modify _ _ _).trans represents.rows
    moves := by
      intro i row found move mem d lower upper
      rw [RegexAutomaton.pushTransition, getElem?_modify] at found
      obtain ⟨old, foundOld, rfl⟩ := Option.map_eq_some_iff.mp found
      split at mem
      · rename_i here
        subst here
        rcases mem_append.mp mem with before | added
        · exact represents.moves _ old foundOld move before d lower upper
        · obtain rfl := mem_singleton.mp added
          -- Only the letter itself is between its bounds.
          obtain rfl := Char.le_antisymm lower upper
          exact leads
      · exact represents.moves _ old foundOld move mem d lower upper }

theorem Represents.transition (represents : self.Represents L)
    (found : self.languageAt state = some M) (c : Char) :
    ∃ next target, self.transition state c = some (next, target) ∧ next.Represents L ∧
      next.initial = self.initial ∧ next.languageAt target = some (after c M) := by
  obtain ⟨s, foundState, rfl⟩ := Option.map_eq_some_iff.mp found
  have lies : state < self.transitions.length :=
    represents.rows ▸ (List.getElem?_eq_some_iff.mp foundState).1
  obtain ⟨row, foundRow⟩ : ∃ row, self.transitions[state]? = some row :=
    ⟨_, getElem?_eq_getElem lies⟩
  rw [transition, foundRow, Option.bind_eq_bind, Option.bind_some]
  split
  · rename_i lo hi target foundMove
    have between := find?_some foundMove
    obtain ⟨lower, upper⟩ := of_decide_eq_true between
    have leads := represents.moves state row foundRow _ (mem_of_find?_eq_some foundMove) c
      lower upper
    exact ⟨self, target, rfl, represents, rfl, by rw [leads, found, Option.map_some]⟩
  · rw [foundState, Option.bind_eq_bind, Option.bind_some]
    have valid := (represents.states s (mem_of_getElem? foundState)).1
    obtain ⟨⟨validDerivative, language⟩, kept⟩ := represents.derivative valid c
    -- Both ways the state asked for has the language of the derivative.
    have validAsked : (if (self.cache.derivative s.regex c).2.isEmpty then Regex.none
        else (self.cache.derivative s.regex c).2).Valid := by
      split
      · exact Regex.valid_none
      · exact validDerivative
    have asked : (if (self.cache.derivative s.regex c).2.isEmpty then Regex.none
        else (self.cache.derivative s.regex c).2).language = after c s.regex.language := by
      split
      · rename_i empty
        rw [← language, Regex.language_of_op (Regex.isEmpty_iff.mp empty)]
        rfl
      · exact language
    obtain ⟨added, leads, others⟩ := kept.getOrCreateState validAsked
    let result := ({ self with cache := (self.cache.derivative s.regex c).1 }).getOrCreateState
      (if (self.cache.derivative s.regex c).2.isEmpty then Regex.none
        else (self.cache.derivative s.regex c).2)
    refine ⟨result.1.pushTransition state c result.2, result.2, rfl, added.pushTransition ?_, ?_,
      leads.trans (congrArg some asked)⟩
    · rw [leads, others state _ found, asked]
      rfl
    · exact initial_getOrCreateState _ _

theorem Represents.acceptsFrom (represents : self.Represents L) {current : Nat}
    (found : self.languageAt current = some M) (cs : List Char) :
    ∃ next answer, self.acceptsFrom current cs = some (next, answer) ∧ next.Represents L ∧
      (answer = true ↔ cs ∈ M) := by
  induction cs generalizing self current M with
  | nil =>
    obtain ⟨s, foundState, rfl⟩ := Option.map_eq_some_iff.mp found
    obtain ⟨valid, accepting⟩ := represents.states s (mem_of_getElem? foundState)
    refine ⟨self, s.accepting, ?_, represents, ?_⟩
    · rw [acceptsFrom, foundState]
      rfl
    · rw [accepting]
      exact valid.nullable_iff
  | cons c cs ih =>
    obtain ⟨next, target, moved, representsNext, -, foundTarget⟩ := represents.transition found c
    rw [acceptsFrom, moved, Option.bind_eq_bind, Option.bind_some]
    dsimp only
    obtain ⟨s, foundState, language⟩ := Option.map_eq_some_iff.mp foundTarget
    rw [foundState, Option.bind_eq_bind, Option.bind_some]
    split
    · rename_i empty
      -- Nothing is left, so no continuation is accepted.
      refine ⟨next, false, rfl, representsNext, iff_of_false Bool.false_ne_true fun word => ?_⟩
      have lies : cs ∈ s.regex.language := language ▸ word
      rw [Regex.language_of_op (Regex.isEmpty_iff.mp empty)] at lies
      exact Language.notMem_zero cs lies
    · exact ih representsNext foundTarget

inductive Reachable (regex : Regex) : RegexAutomaton → Prop
  | new : Reachable regex (new regex)
  | transition {self next : RegexAutomaton} {state target : Nat} {c : Char}
    (before : Reachable regex self) (moved : self.transition state c = some (next, target)) :
    Reachable regex next
  | accepts {self next : RegexAutomaton} {s : String} {answer : Bool}
    (before : Reachable regex self) (asked : self.accepts s = some (next, answer)) :
    Reachable regex next

theorem Reachable.represents {regex : Regex} (valid : regex.Valid) (reachable : Reachable regex self) :
    self.Represents regex.language := by
  induction reachable with
  | new => exact represents_new valid
  | @transition self next state target c before moved ih =>
    -- A state without a row panics, so the state exists.
    have lies : state < self.states.length := by
      apply Nat.lt_of_not_le
      intro outside
      rw [RegexAutomaton.transition, getElem?_eq_none (ih.rows ▸ outside)] at moved
      cases moved
    obtain ⟨next', target', moved', represents, -, -⟩ :=
      ih.transition (M := self.states[state].regex.language)
        (by rw [languageAt, getElem?_eq_getElem lies]; rfl) c
    rw [moved'] at moved
    cases moved
    exact represents
  | @accepts self next s answer before asked ih =>
    obtain ⟨next', answer', asked', represents, -⟩ := ih.acceptsFrom ih.initial s.toList
    rw [RegexAutomaton.accepts, asked'] at asked
    cases asked
    exact represents

end RegexAutomaton

/-- Expressions that constructors build, with the language that they are to have. -/
inductive Built : Regex → Language Char → Prop
  | epsilon : Built .epsilon 1
  | none : Built .none 0
  | all : Built .all ⊤
  | allChar : Built .allChar {w | ∃ c, w = [c]}
  | char (c : Char) : Built (.char c) {[c]}
  | range (lo hi : Char) : Built (.range lo hi) {w | ∃ c, (lo ≤ c ∧ c ≤ hi) ∧ w = [c]}
  | literal (s : String) : Built (.literal s) {s.toList}
  | concat (parts : List (Regex × Language Char)) (each : ∀ p ∈ parts, Built p.1 p.2) :
    Built (.concat (parts.map Prod.fst)) (parts.map Prod.snd).prod
  | union (parts : List (Regex × Language Char)) (each : ∀ p ∈ parts, Built p.1 p.2) :
    Built (.union (parts.map Prod.fst)) {w | ∃ p ∈ parts, w ∈ p.2}
  | inter (parts : List (Regex × Language Char)) (each : ∀ p ∈ parts, Built p.1 p.2) :
    Built (.inter (parts.map Prod.fst)) {w | ∀ p ∈ parts, w ∈ p.2}
  | complement {r : Regex} {L : Language Char} (inner : Built r L) : Built r.complement Lᶜ
  | star {r : Regex} {L : Language Char} (inner : Built r L) : Built r.star (KStar.kstar L)
  | plus {r : Regex} {L : Language Char} (inner : Built r L) :
    Built r.plus {w | ∃ n, 0 < n ∧ w ∈ L ^ n}
  | option {r : Regex} {L : Language Char} (inner : Built r L) : Built r.option (1 + L)
  | loopBounded {r : Regex} {L : Language Char} (inner : Built r L) (min : Nat)
    (max : Option Nat) :
    Built (r.loopBounded min max) {w | ∃ n, min ≤ n ∧ (∀ m, max = some m → n ≤ m) ∧ w ∈ L ^ n}

theorem mem_plus {L : Language Char} {w : List Char} :
    w ∈ L * KStar.kstar L ↔ ∃ n, 0 < n ∧ w ∈ L ^ n := by
  rw [Language.kstar_eq_iSup_pow, Language.mul_iSup, Language.mem_iSup]
  constructor
  · intro ⟨n, word⟩
    exact ⟨n + 1, Nat.succ_pos n, pow_succ' L n ▸ word⟩
  · intro ⟨n, pos, word⟩
    obtain ⟨n, rfl⟩ := Nat.exists_eq_succ_of_ne_zero pos.ne'
    exact ⟨n, pow_succ' L n ▸ word⟩

theorem Built.denotes {r : Regex} {L : Language Char} (built : Built r L) : r.Denotes L := by
  -- A list of operands has the list of their languages.
  have operands {parts : List (Regex × Language Char)} (ih : ∀ p ∈ parts, p.1.Denotes p.2) :
      (∀ r ∈ parts.map Prod.fst, r.Valid) ∧
        (parts.map Prod.fst).map Regex.language = parts.map Prod.snd := by
    constructor
    · exact forall_mem_map.mpr fun p mem => (ih p mem).1
    · rw [map_map]
      exact map_congr_left fun p mem => (ih p mem).2
  induction built with
  | epsilon => exact Regex.denotes_epsilon
  | none => exact Regex.denotes_none
  | all => exact Regex.denotes_all
  | allChar =>
    refine ⟨Regex.valid_allChar, ?_⟩
    ext w
    exact exists_congr fun c => and_iff_right trivial
  | char c => exact Regex.denotes_char c
  | range lo hi => exact Regex.denotes_range lo hi
  | literal s => exact Regex.denotes_literal s
  | concat parts each ih =>
    obtain ⟨valid, languages⟩ := operands ih
    rw [← languages]
    exact Regex.denotes_concat valid
  | union parts each ih =>
    obtain ⟨valid, languages⟩ := operands ih
    obtain ⟨validUnion, language⟩ := Regex.denotes_union valid
    refine ⟨validUnion, ?_⟩
    ext w
    rw [language, languages, mem_foldr_sup]
    constructor
    · intro ⟨M, found, word⟩
      obtain ⟨p, mem, rfl⟩ := mem_map.mp found
      exact ⟨p, mem, word⟩
    · exact fun ⟨p, mem, word⟩ => ⟨p.2, mem_map_of_mem mem, word⟩
  | inter parts each ih =>
    obtain ⟨valid, languages⟩ := operands ih
    obtain ⟨validInter, language⟩ := Regex.denotes_inter valid
    refine ⟨validInter, ?_⟩
    ext w
    rw [language, languages, mem_foldr_inf, forall_mem_map]
    rfl
  | complement inner ih => exact ih.2 ▸ Regex.denotes_complement ih.1
  | star inner ih => exact ih.2 ▸ Regex.denotes_star ih.1
  | plus inner ih =>
    obtain ⟨validPlus, language⟩ := Regex.denotes_plus ih.1
    refine ⟨validPlus, ?_⟩
    ext w
    rw [language, ih.2, mem_plus]
    rfl
  | option inner ih => exact ih.2 ▸ Regex.denotes_option ih.1
  | loopBounded inner min max ih => exact ih.2 ▸ Regex.denotes_loopBounded ih.1 min max

/-- Matching and every lazily built automaton decide the language, whatever was asked before. -/
theorem Built.matches_accepts_iff {r : Regex} {L : Language Char} (built : Built r L) (s : String) :
    (r.matches_ s = true ↔ s.toList ∈ L) ∧ ∀ self, RegexAutomaton.Reachable r self →
        ∃ next answer, self.accepts s = some (next, answer) ∧ (answer = true ↔ s.toList ∈ L) := by
  obtain ⟨valid, rfl⟩ := built.denotes
  refine ⟨matchesFrom_iff valid s.toList, fun self reachable => ?_⟩
  have represents := reachable.represents valid
  obtain ⟨next, answer, asked, -, decides⟩ := represents.acceptsFrom represents.initial s.toList
  exact ⟨next, answer, asked, decides⟩

/-- Anything but a letter, repeated, on an automaton that was asked before. -/
theorem complement_exact :
    (((Regex.char 'a').complement.star).matches_ "a" = true ↔
        "a".toList ∈ KStar.kstar ({['a']}ᶜ : Language Char)) ∧
      ∀ self, RegexAutomaton.Reachable (Regex.char 'a').complement.star self →
        ∃ next answer, self.accepts "a" = some (next, answer) ∧
          (answer = true ↔ "a".toList ∈ KStar.kstar ({['a']}ᶜ : Language Char)) :=
  (Built.char 'a').complement.star.matches_accepts_iff "a"

end Nixie.Strings
