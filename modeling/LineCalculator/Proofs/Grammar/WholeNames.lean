import LineCalculator.Proofs.Expr.Mentions
import LineCalculator.Proofs.Grammar.Soundness
import LineCalculator.Proofs.Token.WholeWord

/-!
# Where phrases stand

A phrase that is derived from a text stands at a certain place in it, and so do
its parts, one behind the other. Each of its names stands there as a whole word:
a symbol or nothing stands in front of a name in a derivation, and what stands
behind it does not carry it on. The names in the tree of a statement and those
that it steps are therefore words of its text.
-/

namespace LineCalculator

open Token (IsIdentifier IsSymbol StartsWord Stops Written)

namespace Token

/-- A name stands between two rests of a text, behind blanks, and no letter or
digit stands directly in front of it or behind it. -/
structure IsWhole (text start rest : List Char) (name : String) : Prop where
  isIdentifier : IsIdentifier name.toList
  startsWord : StartsWord text start
  stops : Stops Char.isAlphanum rest
  split : name.toList ++ rest = skipBlanks start

variable {text start rest : List Char} {name : String}

theorem isWhole_of_written
    {word : List Char}
    (startsWord : StartsWord text (word ++ rest))
    (isIdentifier : IsIdentifier name.toList)
    (written : Written name.toList word)
    (stops : Stops Char.isAlphanum rest) :
    IsWhole text (word ++ rest) rest name :=
  ⟨isIdentifier, startsWord, stops,
    (written.skipBlanks_append isIdentifier.visible rest).symm⟩

theorem IsWhole.leaves (whole : IsWhole text start rest name) :
    Leaves start rest :=
  .of_append whole.isIdentifier.ne_nil whole.split

/-- A whole name is one of the words of the text. -/
theorem IsWhole.mem_words (whole : IsWhole text start rest name) :
    name ∈ words text :=
  whole.startsWord.mem_words whole.isIdentifier whole.stops whole.split

end Token

namespace Grammar

open Token (IsWhole)

/-- A phrase stands in a text between two of its rests: what remains where the
phrase starts, and what remains behind it. -/
inductive Stands (text : List Char) : List Char → List Char → Phrase → Prop
  | number {numeral start rest}
      (isRest : rest <:+ start) :
      Stands text start rest (.number numeral)
  | var {name start rest}
      (whole : IsWhole text start rest name) :
      Stands text start rest (.var name)
  | stepBefore {step name start middle rest}
      (isRest : start <:+ text)
      (symbolRead : Token.literal step.symbol start = some ((), middle))
      (whole : IsWhole text middle rest name) :
      Stands text start rest (.stepBefore step name)
  | stepAfter {name step start middle rest}
      (whole : IsWhole text start middle name)
      (symbolRead : Token.literal step.symbol middle = some ((), rest)) :
      Stands text start rest (.stepAfter name step)
  | call {function argument start rest}
      (argumentStands : Stands text start rest argument) :
      Stands text start rest (.call function argument)
  | binary {operator left right start middle rest}
      (leftStands : Stands text start middle left)
      (rightStands : Stands text middle rest right) :
      Stands text start rest (.binary operator left right)
  | assignment {target value start middle rest}
      (whole : IsWhole text start middle target)
      (valueStands : Stands text middle rest value) :
      Stands text start rest (.assignment target value)
  | operatorAssignment {target operator value start middle rest}
      (whole : IsWhole text start middle target)
      (valueStands : Stands text middle rest value) :
      Stands text start rest (.operatorAssignment target operator value)
  | within {phrase start inner behind rest}
      (front : inner <:+ start)
      (stands : Stands text inner behind phrase)
      (back : rest <:+ behind) :
      Stands text start rest phrase

variable {text start rest word : List Char} {phrase : Phrase}

/-- What stands behind a phrase is an end of the text it starts at. -/
theorem Stands.suffix (stands : Stands text start rest phrase) :
    rest <:+ start := by
  induction stands with
  | number isRest => exact isRest
  | var whole => exact whole.leaves.suffix
  | stepBefore _ symbolRead whole =>
      exact whole.leaves.suffix.trans
        (Token.consumes_literal _ _ _ _ symbolRead).suffix
  | stepAfter whole symbolRead =>
      exact (Token.consumes_literal _ _ _ _ symbolRead).suffix.trans
        whole.leaves.suffix
  | call _ argumentHypothesis => exact argumentHypothesis
  | binary _ _ leftHypothesis rightHypothesis =>
      exact rightHypothesis.trans leftHypothesis
  | assignment whole _ valueHypothesis =>
      exact valueHypothesis.trans whole.leaves.suffix
  | operatorAssignment whole _ valueHypothesis =>
      exact valueHypothesis.trans whole.leaves.suffix
  | within front _ back innerHypothesis =>
      exact back.trans (innerHypothesis.trans front)

/-- What stands behind a symbol stands behind what is in front of it. -/
theorem Stands.behind
    {symbolWord : List Char}
    (stands : Stands text start rest phrase) :
    Stands text (symbolWord ++ start) rest phrase :=
  .within (List.suffix_append symbolWord start) stands List.suffix_rfl

/-- What stands between parentheses stands where the parentheses do. -/
theorem Stands.enclosed
    {openWord closeWord : List Char}
    (stands : Stands text start (closeWord ++ rest) phrase) :
    Stands text (openWord ++ start) rest phrase :=
  .within (List.suffix_append openWord start) stands
    (List.suffix_append closeWord rest)

/-- Two phrases with a symbol between them stand one behind the other. In front
of the symbol a word ends, and behind it one starts. -/
theorem stands_binary
    {symbol symbolWord leftWord rightWord : List Char}
    {left right : Phrase}
    (isSymbol : IsSymbol symbol)
    (symbolWritten : Written symbol symbolWord)
    (leftStands : ∀ {rest}, StartsWord text (leftWord ++ rest) →
      Stops Char.isAlphanum rest → Stands text (leftWord ++ rest) rest left)
    (rightStands : StartsWord text (rightWord ++ rest) →
      Stands text (rightWord ++ rest) rest right)
    (operator : Operator)
    (startsWord :
      StartsWord text (leftWord ++ (symbolWord ++ rightWord) ++ rest)) :
    Stands text (leftWord ++ (symbolWord ++ rightWord) ++ rest) rest
      (.binary operator left right) := by
  obtain ⟨leftStarts, leftStops, rightStarts⟩ :=
    isSymbol.divides symbolWritten startsWord
  rw [List.append_assoc, List.append_assoc]
  exact .binary (leftStands leftStarts leftStops)
    (rightStands rightStarts).behind

/-- A phrase whose word starts where a word of the text starts, and is not
carried on, stands there with all its names whole. What follows a part of the
word is the part behind it and not the rest of the whole, so the rest is
arbitrary. -/
theorem Derives.stands
    {names : List String}
    {category : Category}
    (derived : Derives names category word phrase)
    (startsWord : StartsWord text (word ++ rest))
    (stops : Stops Char.isAlphanum rest) :
    Stands text (word ++ rest) rest phrase := by
  have equals : IsSymbol ['='] :=
    Token.isSymbol_singleton (by decide) (by decide)
  have caret : IsSymbol ['^'] :=
    Token.isSymbol_singleton (by decide) (by decide)
  have opening : IsSymbol ['('] :=
    Token.isSymbol_singleton (by decide) (by decide)
  have closing : IsSymbol [')'] :=
    Token.isSymbol_singleton (by decide) (by decide)
  induction derived generalizing rest with
  | assignment isIdentifier nameWritten symbolWritten _ valueHypothesis =>
      obtain ⟨nameStarts, nameStops, valueStarts⟩ :=
        equals.divides symbolWritten startsWord
      rw [List.append_assoc, List.append_assoc]
      exact .assignment
        (Token.isWhole_of_written nameStarts isIdentifier nameWritten nameStops)
        (valueHypothesis valueStarts stops).behind
  | @operatorAssignment _ operator _ _ _ _ isIdentifier _ nameWritten
      symbolWritten _ valueHypothesis =>
      obtain ⟨nameStarts, nameStops, valueStarts⟩ :=
        (Token.isSymbol_compound operator).divides symbolWritten startsWord
      rw [List.append_assoc, List.append_assoc]
      exact .operatorAssignment
        (Token.isWhole_of_written nameStarts isIdentifier nameWritten nameStops)
        (valueHypothesis valueStarts stops).behind
  | calculation _ sumHypothesis => exact sumHypothesis startsWord stops
  | oneTerm _ productHypothesis => exact productHypothesis startsWord stops
  | @moreTerms _ operator _ _ _ _ _ _ symbolWritten _ leftHypothesis
      rightHypothesis =>
      exact stands_binary (Token.isSymbol_operator operator) symbolWritten
        leftHypothesis (rightHypothesis · stops) operator startsWord
  | oneFactor _ factorHypothesis => exact factorHypothesis startsWord stops
  | @moreFactors _ operator _ _ _ _ _ _ symbolWritten _ leftHypothesis
      rightHypothesis =>
      exact stands_binary (Token.isSymbol_operator operator) symbolWritten
        leftHypothesis (rightHypothesis · stops) operator startsWord
  | function _ functionHypothesis => exact functionHypothesis startsWord stops
  | operand _ operandHypothesis => exact operandHypothesis startsWord stops
  | power _ symbolWritten _ baseHypothesis exponentHypothesis =>
      exact stands_binary caret symbolWritten baseHypothesis
        (exponentHypothesis · stops) .exponentiation startsWord
  | group openWritten _ closeWritten innerHypothesis =>
      rw [List.append_assoc, List.append_assoc] at startsWord ⊢
      exact (innerHypothesis
        (opening.startsWord_of_written openWritten startsWord.suffix)
        (closing.stops_of_written closeWritten _)).enclosed
  | var isIdentifier nameWritten =>
      exact .var
        (Token.isWhole_of_written startsWord isIdentifier nameWritten stops)
  | number _ _ => exact .number (List.suffix_append _ _)
  | @stepBefore step _ _ _ isIdentifier _ symbolWritten nameWritten =>
      rw [List.append_assoc] at startsWord ⊢
      have symbol := Token.isSymbol_step step
      have nameStarts := symbol.startsWord_of_written symbolWritten
        startsWord.suffix
      exact .stepBefore startsWord.suffix
        (symbolWritten.literal_append symbol.visible _)
        (Token.isWhole_of_written nameStarts isIdentifier nameWritten stops)
  | @stepAfter _ step _ _ isIdentifier _ nameWritten symbolWritten =>
      rw [List.append_assoc] at startsWord ⊢
      have symbol := Token.isSymbol_step step
      have nameStops := symbol.stops_of_written symbolWritten rest
      exact .stepAfter
        (Token.isWhole_of_written startsWord isIdentifier nameWritten nameStops)
        (symbolWritten.literal_append symbol.visible rest)
  | call _ openWritten _ closeWritten argumentHypothesis =>
      obtain ⟨-, -, argumentStarts⟩ := opening.divides openWritten startsWord
      rw [List.append_assoc] at argumentStarts
      have argumentStands := argumentHypothesis argumentStarts
        (closing.stops_of_written closeWritten rest)
      rw [List.append_assoc, List.append_assoc, List.append_assoc]
      exact .call argumentStands.enclosed.behind

/-- A statement that is read is the value of a phrase that stands in its text
from the first character on. -/
theorem exists_stands_of_parse?
    {text : String}
    {environment : Environment}
    {statement : Statement}
    (identifiers : ∀ name ∈ environment.names, IsIdentifier name.toList)
    (parsed : Statement.parse? text environment = some statement) :
    ∃ rest phrase, Stands text.toList text.toList rest phrase ∧
      phrase.read environment [] = (statement.root, statement.steps) := by
  obtain ⟨phrase, ⟨word, blanks, derived, blank, split⟩, value⟩ :=
    exists_derivesText_of_parse? identifiers parsed
  have startsWord : StartsWord text.toList (word ++ blanks) :=
    split ▸ Token.startsWord_self _
  have stops : Stops Char.isAlphanum blanks := by
    intro first isFirst
    by_contra alphanumeric
    have notBlank := isBlank_eq_false_of_isAlphanum (by simpa using alphanumeric)
    simp [blank first (List.mem_of_mem_head? isFirst)] at notBlank
  have stands := derived.stands startsWord stops
  rw [split] at stands
  exact ⟨blanks, phrase, stands, value⟩

/-- The variables of a phrase are among the given names. -/
def Phrase.MentionsOnly (names : List String) : Phrase → Prop
  | .number _ => True
  | .var name => name ∈ names
  | .stepBefore _ name => name ∈ names
  | .stepAfter name _ => name ∈ names
  | .call _ argument => argument.MentionsOnly names
  | .binary _ left right => left.MentionsOnly names ∧ right.MentionsOnly names
  | .assignment target value => target ∈ names ∧ value.MentionsOnly names
  | .operatorAssignment target _ value =>
      target ∈ names ∧ value.MentionsOnly names

/-- The tree of a phrase and its steps are on the names that the phrase
mentions. -/
theorem Phrase.MentionsOnly.read
    {names : List String}
    {phrase : Phrase}
    (mentions : phrase.MentionsOnly names)
    (environment : Environment)
    {steps : List StagedStep}
    (before : ∀ staged ∈ steps, staged.name ∈ names) :
    (phrase.read environment steps).1.MentionsOnly names ∧
      ∀ staged ∈ (phrase.read environment steps).2, staged.name ∈ names := by
  induction phrase generalizing steps with
  | number numeral => exact ⟨trivial, before⟩
  | var name => exact ⟨mentions, before⟩
  | stepBefore step name =>
      refine ⟨trivial, ?_⟩
      intro staged member
      rcases List.mem_append.mp member with earlier | last
      · exact before staged earlier
      · rw [List.mem_singleton.mp last]
        exact mentions
  | stepAfter name step => exact ⟨mentions, before⟩
  | call function argument argumentHypothesis =>
      exact argumentHypothesis mentions before
  | binary operator left right leftHypothesis rightHypothesis =>
      obtain ⟨leftTree, between⟩ := leftHypothesis mentions.1 before
      obtain ⟨rightTree, after⟩ := rightHypothesis mentions.2 between
      exact ⟨⟨leftTree, rightTree⟩, after⟩
  | assignment target value valueHypothesis =>
      obtain ⟨valueTree, after⟩ := valueHypothesis mentions.2 before
      exact ⟨⟨mentions.1, valueTree⟩, after⟩
  | operatorAssignment target operator value valueHypothesis =>
      obtain ⟨valueTree, after⟩ := valueHypothesis mentions.2 before
      exact ⟨⟨mentions.1, mentions.1, valueTree⟩, after⟩

/-- A phrase that stands in a text mentions only words of the text. -/
theorem Stands.mentionsOnly
    {text start rest : List Char}
    {phrase : Phrase}
    (stands : Stands text start rest phrase) :
    phrase.MentionsOnly (words text) := by
  induction stands with
  | number _ => trivial
  | var whole => exact whole.mem_words
  | stepBefore _ _ whole => exact whole.mem_words
  | stepAfter whole _ => exact whole.mem_words
  | call _ argumentHypothesis => exact argumentHypothesis
  | binary _ _ leftHypothesis rightHypothesis =>
      exact ⟨leftHypothesis, rightHypothesis⟩
  | assignment whole _ valueHypothesis =>
      exact ⟨whole.mem_words, valueHypothesis⟩
  | operatorAssignment whole _ valueHypothesis =>
      exact ⟨whole.mem_words, valueHypothesis⟩
  | within _ _ _ innerHypothesis => exact innerHypothesis

/-- The tree of a statement that is read, and its steps, are on words of its
text. -/
theorem mentionsOnly_of_parse?
    {text : String}
    {environment : Environment}
    {statement : Statement}
    (identifiers : ∀ name ∈ environment.names, IsIdentifier name.toList)
    (parsed : Statement.parse? text environment = some statement) :
    statement.root.MentionsOnly (words text.toList) ∧
      ∀ staged ∈ statement.steps, staged.name ∈ words text.toList := by
  obtain ⟨rest, phrase, stands, value⟩ :=
    exists_stands_of_parse? identifiers parsed
  have noSteps : ∀ staged ∈ ([] : List StagedStep),
      staged.name ∈ words text.toList := by
    simp
  have read := stands.mentionsOnly.read environment noSteps
  rwa [value] at read

end Grammar

end LineCalculator
