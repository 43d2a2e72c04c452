import Mathlib.Data.List.DropRight
import Mathlib.Data.List.Dedup

/-! Clauses as text: literals, pivots and the symbols of a formula. -/

namespace Nixie.Craig

open List Option

/--
The Unicode classes of characters that the text functions ask for.

Only what they say about the characters of the clause syntax is fixed.
-/
structure CharClasses where
  isAlphanumeric : Char → Bool
  isNumeric : Char → Bool
  isWhitespace : Char → Bool
  alphanumeric_letter : ∀ c ∈ "adeflnorstu".toList, isAlphanumeric c = true
  not_alphanumeric : ∀ c ∈ "() ".toList, isAlphanumeric c = false
  whitespace_space : isWhitespace ' ' = true
  not_whitespace : ∀ c ∈ "()not".toList, isWhitespace c = false

abbrev Text := List Char

variable (classes : CharClasses)

def trim (text : Text) : Text :=
  (text.dropWhile classes.isWhitespace).rdropWhile classes.isWhitespace

/-- The content after the keyword, if the text is of the form `(keyword ...)`. -/
def stripWrapped (text : Text) (keyword : Text) : Option Text :=
  match text with
  | '(' :: tail =>
    if tail.getLast? = some ')' then
      match keyword.isPrefixOf? (trim classes tail.dropLast) with
      | none => none
      | some [] => some []
      | some (c :: rest) =>
        if classes.isWhitespace c then some ((c :: rest).dropWhile classes.isWhitespace) else none
    else none
  | _ => none

def keywords : List Text :=
  ["and", "or", "not", "implies", "iff", "xor", "forall", "exists", "true", "false", "let", "ite",
    "distinct"].map String.toList

def isWord (c : Char) : Bool := classes.isAlphanumeric c || c == '_'

/-- The symbol that was read, unless it is empty, a number or a keyword. -/
def flushSymbol (current : Text) : List Text :=
  if !current.isEmpty && !current.all classes.isNumeric && !keywords.contains current then [current]
  else []

/-- The symbols of a text after a part of one. -/
def scanSymbols : Text → Text → List Text
  | current, [] => flushSymbol classes current
  | current, c :: rest =>
    if isWord classes c then scanSymbols (current ++ [c]) rest
    else flushSymbol classes current ++ scanSymbols [] rest

def extractSymbols (formula : Text) : List Text := scanSymbols classes [] formula

/-- A parsed literal: an atom with its polarity and its symbols. -/
structure ClauseLiteral where
  atom : Text
  positive : Bool
  symbols : List Text
  deriving DecidableEq

def stripNots : Nat → Text → Bool → Text × Bool
  | 0, trimmed, positive => (trimmed, positive)
  | fuel + 1, trimmed, positive =>
    match stripWrapped classes trimmed "not".toList with
    | some inner => stripNots fuel (trim classes inner) (!positive)
    | none => (trimmed, positive)

/-- Parse a literal; what is not a negation is an atom. -/
def parseLiteral (text : Text) : ClauseLiteral :=
  let (atom, positive) := stripNots classes text.length (trim classes text) true
  { atom, positive, symbols := extractSymbols classes atom }

def isEmptyClauseConclusion (text : Text) : Bool :=
  let trimmed := trim classes text
  trimmed == ['⊥'] ||
    (["", "false", "()", "(or)", "$false", "bottom"].map String.toList).contains
      (trimmed.map Char.toLower)

def splitTopLevel : Int → Option Text → Text → List Text
  | _, start, [] => start.toList
  | depth, start, c :: rest =>
    let extended := some (start.getD [] ++ [c])
    if c = '(' then splitTopLevel (depth + 1) extended rest
    else if c = ')' then splitTopLevel (depth - 1) (start.map (· ++ [c])) rest
    else if classes.isWhitespace c && depth == 0 then
      start.toList ++ splitTopLevel depth none rest
    else splitTopLevel depth extended rest

def parseClauseLiterals (conclusion : Text) : List ClauseLiteral :=
  let trimmed := trim classes conclusion
  if isEmptyClauseConclusion classes trimmed then []
  else match stripWrapped classes trimmed "or".toList with
    | some inner => (splitTopLevel classes 0 none inner).map (parseLiteral classes)
    | none => [parseLiteral classes trimmed]

def isResolutionRule (rule : Text) : Bool :=
  (["resolution", "resolve", "unit_prop", "unit_propagation"].map String.toList).contains rule

/-- The atoms with which a literal of one clause complements one of the other. -/
def complementary (clause clause' : Text) : List Text :=
  (parseClauseLiterals classes clause).flatMap fun la =>
    (parseClauseLiterals classes clause').filterMap fun lb =>
      if la.atom = lb.atom ∧ la.positive ≠ lb.positive then some la.atom else none

/-- The atom to resolve on, if there is exactly one. -/
def findPivot (clause clause' : Text) : Option Text :=
  match (complementary classes clause clause').dedup with
  | [atom] => some atom
  | _ => none

variable {classes}

/-- No white space at the ends. -/
structure Trimmed (classes : CharClasses) (text : Text) : Prop where
  head : ∀ c, text.head? = some c → classes.isWhitespace c = false
  last : ∀ c, text.getLast? = some c → classes.isWhitespace c = false

theorem trim_trimmed (text : Text) : Trimmed classes (trim classes text) where
  head := by
    intro c first
    -- The front is that of the text without leading white space.
    obtain ⟨rest, split⟩ := List.rdropWhile_prefix classes.isWhitespace
      (l := text.dropWhile classes.isWhitespace)
    have front : (text.dropWhile classes.isWhitespace).head? = some c := by
      have first : (rdropWhile classes.isWhitespace
          (text.dropWhile classes.isWhitespace)).head? = some c := first
      rw [← split, head?_append, first]
      rfl
    have nonempty : text.dropWhile classes.isWhitespace ≠ [] := fun empty => by
      rw [empty] at front
      cases front
    have stop := head_dropWhile_not classes.isWhitespace nonempty
    rw [head?_eq_some_head nonempty] at front
    exact some.inj front ▸ stop
  last := by
    intro c last
    have nonempty : trim classes text ≠ [] := fun empty => by
      rw [empty] at last
      cases last
    have stop := rdropWhile_last_not classes.isWhitespace _ nonempty
    rw [getLast?_eq_some_getLast nonempty] at last
    have same := some.inj last
    exact same ▸ Bool.eq_false_iff.mpr stop

theorem Trimmed.trim_eq {text : Text} (trimmed : Trimmed classes text) :
    trim classes text = text := by
  have front : text.dropWhile classes.isWhitespace = text := by
    cases text with
    | nil => rfl
    | cons c rest => rw [dropWhile_cons, trimmed.head c rfl, if_neg Bool.false_ne_true]
  rw [trim, front, rdropWhile_eq_self_iff]
  intro nonempty
  simp [trimmed.last _ (getLast?_eq_some_getLast nonempty)]

variable (classes) in
theorem trim_length_le (text : Text) : (trim classes text).length ≤ text.length :=
  (List.rdropWhile_prefix _ _).length_le.trans (length_dropWhile_le _ _)

theorem isPrefixOf?_eq_some {keyword text rest : Text}
    (found : keyword.isPrefixOf? text = some rest) : text = keyword ++ rest := by
  induction keyword generalizing text with
  | nil => simpa [isPrefixOf?] using found
  | cons c keyword ih =>
    cases text with
    | nil => cases found
    | cons d text =>
      rw [isPrefixOf?] at found
      split_ifs at found with same
      rw [ih found, eq_of_beq same, cons_append]

theorem isPrefixOf?_append (keyword rest : Text) :
    keyword.isPrefixOf? (keyword ++ rest) = some rest := by
  induction keyword with
  | nil => rfl
  | cons c keyword ih => rw [cons_append, isPrefixOf?, beq_self_eq_true, if_pos rfl, ih]

theorem stripWrapped_length {text keyword inner : Text}
    (found : stripWrapped classes text keyword = some inner) : inner.length < text.length := by
  cases text with
  | nil => cases found
  | cons c tail =>
    have within : ∀ {rest : Text}, keyword.isPrefixOf? (trim classes tail.dropLast) = some rest →
        rest.length ≤ tail.length := by
      intro rest split
      have whole := congrArg length (isPrefixOf?_eq_some split)
      have short := trim_length_le classes tail.dropLast
      rw [length_append] at whole
      rw [length_dropLast] at short
      omega
    rw [stripWrapped.eq_def] at found
    split at found
    · rename_i tail' eq
      obtain ⟨-, rfl⟩ := cons.inj eq
      split_ifs at found with closed
      split at found
      · cases found
      · obtain rfl := some.inj found
        exact Nat.succ_pos _
      · rename_i d rest split
        split_ifs at found with blank
        obtain rfl := some.inj found
        have short := length_dropWhile_le classes.isWhitespace (d :: rest)
        have := within split
        simp only [length_cons] at *
        omega
    · cases found

/-- An atom text: without white space around it, and not a negation. -/
structure AtomText (classes : CharClasses) (atom : Text) : Prop where
  trimmed : Trimmed classes atom
  plain : stripWrapped classes atom "not".toList = none

theorem stripNots_atom (fuel : Nat) :
    ∀ {text : Text} {pos : Bool}, text.length ≤ fuel → Trimmed classes text →
      AtomText classes (stripNots classes fuel text pos).1 := by
  induction fuel with
  | zero =>
    intro text pos short trimmed
    obtain rfl : text = [] := length_eq_zero_iff.mp (Nat.le_zero.mp short)
    exact ⟨trimmed, rfl⟩
  | succ fuel ih =>
    intro text pos short trimmed
    rw [stripNots]
    cases found : stripWrapped classes text "not".toList with
    | none => exact ⟨trimmed, found⟩
    | some inner =>
      have shorter := stripWrapped_length found
      have trims := trim_length_le classes inner
      exact ih (by omega) (trim_trimmed inner)

theorem parseLiteral_spec (text : Text) : AtomText classes (parseLiteral classes text).atom ∧
      (parseLiteral classes text).symbols =
        extractSymbols classes (parseLiteral classes text).atom :=
  ⟨stripNots_atom _ (trim_length_le classes text) (trim_trimmed text), rfl⟩

theorem parseClauseLiterals_spec {conclusion : Text} {lit : ClauseLiteral}
    (mem : lit ∈ parseClauseLiterals classes conclusion) :
    AtomText classes lit.atom ∧ lit.symbols = extractSymbols classes lit.atom := by
  rw [parseClauseLiterals] at mem
  split_ifs at mem with empty
  · cases mem
  · split at mem
    · obtain ⟨text, -, rfl⟩ := mem_map.mp mem
      exact parseLiteral_spec text
    · obtain rfl := mem_singleton.mp mem
      exact parseLiteral_spec _

def notText (atom : Text) : Text := "(not ".toList ++ atom ++ [')']

theorem stripNots_plain {atom : Text} (plain : stripWrapped classes atom "not".toList = none)
    (fuel : Nat) (pos : Bool) : stripNots classes fuel atom pos = (atom, pos) := by
  cases fuel with
  | zero => rfl
  | succ fuel => rw [stripNots, plain]

theorem parseLiteral_atom {atom : Text} (isAtom : AtomText classes atom) :
    ((parseLiteral classes atom).atom, (parseLiteral classes atom).positive) = (atom, true) := by
  rw [parseLiteral, isAtom.trimmed.trim_eq, stripNots_plain isAtom.plain]

theorem not_whitespace {c : Char} (mem : c ∈ "()not".toList) :
    classes.isWhitespace c = false :=
  classes.not_whitespace c mem

theorem stripWrapped_not {atom : Text} (trimmed : Trimmed classes atom) :
    stripWrapped classes (notText atom) "not".toList = some atom := by
  have tail : notText atom = '(' :: (("not ".toList ++ atom) ++ [')']) := rfl
  have blank : classes.isWhitespace ' ' = true := classes.whitespace_space
  rw [tail, stripWrapped, if_pos getLast?_concat, dropLast_concat]
  cases atom with
  | nil =>
    -- The blank after the keyword goes with the white space at the end.
    have inner : trim classes ("not ".toList ++ []) = "not".toList ++ [] := by
      have front : ("not ".toList ++ []).dropWhile classes.isWhitespace = "not".toList ++ [' '] :=
        dropWhile_cons_of_neg (Bool.eq_false_iff.mp (not_whitespace (by decide)))
      have stop : ("not".toList).rdropWhile classes.isWhitespace = "not".toList :=
        rdropWhile_concat_neg classes.isWhitespace ['n', 'o'] 't'
          (Bool.eq_false_iff.mp (not_whitespace (by decide)))
      rw [trim, front, rdropWhile_concat_pos _ _ _ blank, stop, append_nil]
    rw [inner, isPrefixOf?_append]
  | cons c rest =>
    have inner : Trimmed classes ("not ".toList ++ (c :: rest)) := by
      constructor
      · intro d first
        obtain rfl : 'n' = d := some.inj first
        exact not_whitespace (by decide)
      · intro d last
        rw [getLast?_append_of_ne_nil _ (cons_ne_nil c rest)] at last
        exact trimmed.last d last
    have split : "not ".toList ++ (c :: rest) = "not".toList ++ (' ' :: c :: rest) := rfl
    rw [inner.trim_eq, split, isPrefixOf?_append]
    have front : (c :: rest).dropWhile classes.isWhitespace = c :: rest := by
      rw [dropWhile_cons, trimmed.head c rfl, if_neg Bool.false_ne_true]
    simp only [blank, if_true, dropWhile_cons_of_pos blank, front]

theorem parseLiteral_not {atom : Text} (isAtom : AtomText classes atom) :
    ((parseLiteral classes (notText atom)).atom,
      (parseLiteral classes (notText atom)).positive) = (atom, false) := by
  have whole : Trimmed classes (notText atom) := by
    constructor
    · intro c first
      obtain rfl : '(' = c := some.inj first
      exact not_whitespace (by decide)
    · intro c last
      rw [notText, getLast?_concat] at last
      obtain rfl := some.inj last
      exact not_whitespace (by decide)
  have long : (notText atom).length = atom.length + 5 + 1 := by
    simp [notText]
  rw [parseLiteral, whole.trim_eq, long, stripNots, stripWrapped_not isAtom.trimmed]
  simp only [isAtom.trimmed.trim_eq, stripNots_plain isAtom.plain, Bool.not_true]

theorem scanSymbols_append {c : Char} (apart : isWord classes c = false) (rest : Text)
    (text : Text) :
    ∀ current, scanSymbols classes current (text ++ c :: rest) =
      scanSymbols classes current text ++ extractSymbols classes rest := by
  induction text with
  | nil =>
    intro current
    rw [nil_append, scanSymbols.eq_2, apart, if_neg Bool.false_ne_true, scanSymbols.eq_1,
      extractSymbols]
  | cons d text ih =>
    intro current
    rw [cons_append, scanSymbols.eq_2, scanSymbols.eq_2]
    split_ifs
    · exact ih _
    · rw [ih, append_assoc]

theorem extractSymbols_append {c : Char} (apart : isWord classes c = false) (text rest : Text) :
    extractSymbols classes (text ++ c :: rest) =
      extractSymbols classes text ++ extractSymbols classes rest :=
  scanSymbols_append apart rest text []

theorem not_word {c : Char} (mem : c ∈ "() ".toList) : isWord classes c = false := by
  have alphanumeric := classes.not_alphanumeric c mem
  have underscore : "() ".toList.all (· != '_') = true := rfl
  rw [isWord, alphanumeric, Bool.false_or, beq_eq_false_iff_ne]
  exact bne_iff_ne.mp (all_eq_true.mp underscore c mem)

theorem scanSymbols_word (rest : Text) : ∀ current, (∀ c ∈ rest, isWord classes c = true) →
      scanSymbols classes current rest = flushSymbol classes (current ++ rest) := by
  induction rest with
  | nil => exact fun current _ => by rw [scanSymbols.eq_1, append_nil]
  | cons c rest ih =>
    intro current word
    rw [scanSymbols.eq_2, if_pos (word c mem_cons_self),
      ih _ fun d mem => word d (mem_cons_of_mem _ mem), append_assoc]
    rfl

theorem extractSymbols_keyword {keyword : Text}
    (letters : keyword.all "adeflnorstu".toList.contains = true) (known : keyword ∈ keywords) : extractSymbols classes keyword = [] := by
  have word : ∀ c ∈ keyword, isWord classes c = true := by
    intro c mem
    have letter := contains_iff_mem.mp (all_eq_true.mp letters c mem)
    rw [isWord, classes.alphanumeric_letter c letter]
    rfl
  rw [extractSymbols, scanSymbols_word keyword [] word, nil_append, flushSymbol,
    contains_iff_mem.mpr known]
  simp

theorem extractSymbols_identifier {atom : Text} (nonempty : atom.isEmpty = false)
    (word : atom.all (isWord classes) = true) (letter : atom.all classes.isNumeric = false) :
    extractSymbols classes atom = if keywords.contains atom then [] else [atom] := by
  rw [extractSymbols, scanSymbols_word atom [] (all_eq_true.mp word), nil_append,
    flushSymbol, nonempty, letter]
  cases keywords.contains atom with
  | true => rfl
  | false => rfl

theorem not_keyword_of_mem {s : Text} (text : Text) :
    ∀ current, s ∈ scanSymbols classes current text → s ∉ keywords := by
  have flushed : ∀ current, s ∈ flushSymbol classes current → s ∉ keywords := by
    intro current mem
    rw [flushSymbol] at mem
    split_ifs at mem with symbol
    · obtain rfl := mem_singleton.mp mem
      intro known
      rw [contains_iff_mem.mpr known] at symbol
      simp at symbol
    · cases mem
  induction text with
  | nil => exact fun current mem => flushed current mem
  | cons c rest ih =>
    intro current mem
    rw [scanSymbols.eq_2] at mem
    split_ifs at mem
    · exact ih _ mem
    · exact (mem_append.mp mem).elim (flushed current) (ih [])

theorem extractSymbols_not (atom : Text) :
    extractSymbols classes (notText atom) = extractSymbols classes atom := by
  have split : notText atom = [] ++ '(' :: ("not".toList ++ ' ' :: (atom ++ ')' :: [])) := by
    simp [notText]
  have word : extractSymbols classes "not".toList = [] :=
    extractSymbols_keyword (by decide) (by decide)
  have nothing : extractSymbols classes [] = [] := rfl
  rw [split, extractSymbols_append (not_word (by decide)),
    extractSymbols_append (not_word (by decide)), extractSymbols_append (not_word (by decide)),
    word, nothing]
  simp

end Nixie.Craig
