import LineCalculator.Proofs.Grammar.Completeness
import LineCalculator.Proofs.Grammar.StepPlaces
import LineCalculator.Proofs.Grammar.UnboundReading
import Mathlib.Data.List.Chain

/-!
# Texts of statements without steps

The symbols that only stand beside a bound name are made up of two marks. In the
text of a statement without steps and without an assignment by an operator, a
mark always stands between two words that neither start nor end with one, so no
two marks meet and the text holds none of these symbols.
-/

namespace LineCalculator

namespace Grammar

/-- The characters of the symbols that only stand beside a bound name. -/
def marks : List Char :=
  ['+', '-', '*', '/', '^', '%', '=']

/-- Two characters that are no symbol when they stand side by side. -/
def Unjoined (first second : Char) : Prop :=
  [first, second] ∉ boundSymbols.map String.toList

/-- A word that neither starts nor ends with a mark and has no symbol in it. -/
structure FreeOfSymbols (word : List Char) : Prop where
  nonempty : word ≠ []
  unjoined : word.IsChain Unjoined
  first : ∀ first ∈ word.head?, first ∉ marks
  last : ∀ last ∈ word.getLast?, last ∉ marks

variable
  {text word spelling symbolWord leftWord rightWord : List Char}
  {character first second : Char}

/-- A character of a kind to which no mark belongs is no mark. -/
theorem not_mem_marks
    {kind : Char → Bool}
    (noMark : marks.all (fun mark => !kind mark) = true)
    (ofKind : kind character = true) :
    character ∉ marks := by
  intro member
  simpa [ofKind] using List.all_eq_true.mp noMark character member

theorem not_mem_marks_of_isAlphanum
    (isAlphanum : character.isAlphanum = true) :
    character ∉ marks :=
  not_mem_marks (by decide) isAlphanum

theorem not_mem_marks_of_isBlank
    (blank : isBlank character = true) :
    character ∉ marks :=
  not_mem_marks (by decide) blank

/-- Two characters of which one is no mark make no symbol. -/
theorem unjoined_of_not_mem
    (noMark : first ∉ marks ∨ second ∉ marks) :
    Unjoined first second := by
  have marked : ∀ symbol ∈ boundSymbols, symbol.toList ⊆ marks := by
    decide
  intro joined
  obtain ⟨symbol, member, spelled⟩ := List.mem_map.mp joined
  have both : [first, second] ⊆ marks := spelled ▸ marked symbol member
  obtain ⟨firstMark, secondMark⟩ := List.cons_subset.mp both
  exact noMark.elim (absurd firstMark)
    (absurd (secondMark List.mem_cons_self))

/-- A text in which no two neighbours make up a symbol needs no bound name. -/
theorem needsNoName_of_isChain (unjoined : text.IsChain Unjoined) :
    NeedsNoName text := by
  have pairs : ∀ symbol ∈ boundSymbols, symbol.toList.length = 2 := by
    decide
  intro symbol member inText
  obtain ⟨first, second, spelled⟩ := List.length_eq_two.mp (pairs symbol member)
  rw [spelled] at inText
  have apart : Unjoined first second :=
    List.isChain_pair.mp <| List.IsChain.infix unjoined inText
  exact apart (List.mem_map.mpr ⟨symbol, member, spelled⟩)

theorem isChain_of_forall (noMark : ∀ character ∈ word, character ∉ marks) :
    word.IsChain Unjoined := by
  induction word with
  | nil => exact .nil
  | cons first word wordHypothesis =>
      obtain ⟨here, later⟩ := List.forall_mem_cons.mp noMark
      exact List.isChain_cons.mpr
        ⟨fun _ _ => unjoined_of_not_mem (.inl here), wordHypothesis later⟩

/-- A word without marks is free of symbols. -/
theorem freeOfSymbols_of_forall
    (nonempty : word ≠ [])
    (noMark : ∀ character ∈ word, character ∉ marks) :
    FreeOfSymbols word where
  nonempty := nonempty
  unjoined := isChain_of_forall noMark
  first first isFirst := noMark first (List.mem_of_mem_head? isFirst)
  last last isLast := noMark last (List.mem_of_mem_getLast? isLast)

namespace FreeOfSymbols

/-- Words that are free of symbols are so together, since they meet without
marks. -/
theorem append
    (left : FreeOfSymbols leftWord)
    (right : FreeOfSymbols rightWord) :
    FreeOfSymbols (leftWord ++ rightWord) where
  nonempty := by simp [left.nonempty]
  unjoined := left.unjoined.append right.unjoined fun last isLast _ _ =>
    unjoined_of_not_mem (.inl (left.last last isLast))
  first := by
    rw [List.head?_append_of_ne_nil _ left.nonempty]
    exact left.first
  last := by
    rw [List.getLast?_append_of_ne_nil _ right.nonempty]
    exact right.last

/-- One mark may stand between two words, behind any blanks. -/
theorem operation
    {mark : Char}
    (left : FreeOfSymbols leftWord)
    (symbolWritten : Token.Written [mark] symbolWord)
    (right : FreeOfSymbols rightWord) :
    FreeOfSymbols (leftWord ++ (symbolWord ++ rightWord)) := by
  obtain ⟨blanks, blank, rfl⟩ := symbolWritten
  have noMark : ∀ character ∈ blanks, character ∉ marks :=
    fun character member => not_mem_marks_of_isBlank (blank character member)
  have marked : (mark :: rightWord).IsChain Unjoined :=
    List.isChain_cons.mpr ⟨fun first isFirst =>
      unjoined_of_not_mem (.inr (right.first first isFirst)), right.unjoined⟩
  have behind : (blanks ++ mark :: rightWord).IsChain Unjoined :=
    (isChain_of_forall noMark).append marked fun last isLast _ _ =>
      unjoined_of_not_mem (.inl (noMark last (List.mem_of_mem_getLast? isLast)))
  rw [List.append_assoc, List.singleton_append]
  refine ⟨by simp [left.nonempty], ?_, ?_, ?_⟩
  · exact left.unjoined.append behind fun last isLast _ _ =>
      unjoined_of_not_mem (.inl (left.last last isLast))
  · rw [List.head?_append_of_ne_nil _ left.nonempty]
    exact left.first
  · have last_eq : (leftWord ++ (blanks ++ mark :: rightWord)).getLast? =
        rightWord.getLast? := by
      rw [← List.singleton_append, ← List.append_assoc, ← List.append_assoc,
        List.getLast?_append_of_ne_nil _ right.nonempty]
    rw [last_eq]
    exact right.last

end FreeOfSymbols

/-- Blanks in front of a word add no symbol. -/
theorem freeOfSymbols_of_written
    (written : Token.Written spelling word)
    (free : FreeOfSymbols spelling) :
    FreeOfSymbols word := by
  obtain ⟨blanks, blank, rfl⟩ := written
  rcases blanks with _ | ⟨first, blanks⟩
  · exact free
  · have blankWord : FreeOfSymbols (first :: blanks) :=
      freeOfSymbols_of_forall (List.cons_ne_nil first blanks)
        fun character member => not_mem_marks_of_isBlank (blank character member)
    exact blankWord.append free

theorem freeOfSymbols_name
    {name : String}
    (isIdentifier : Token.IsIdentifier name.toList) :
    FreeOfSymbols name.toList :=
  freeOfSymbols_of_forall isIdentifier.ne_nil fun _ member =>
    not_mem_marks_of_isAlphanum (isIdentifier.isAlphanum member)

theorem freeOfSymbols_digits
    (nonempty : word ≠ [])
    (digits : ∀ digit ∈ word, digit.isDigit = true) :
    FreeOfSymbols word :=
  freeOfSymbols_of_forall nonempty fun digit member =>
    not_mem_marks_of_isAlphanum (by simp [Char.isAlphanum, digits digit member])

/-- The sign of an exponent stands between its mark and a digit. -/
theorem freeOfSymbols_exponent
    {exponent : Numeral.Exponent}
    (wellFormed : exponent.WellFormed) :
    FreeOfSymbols exponent.characters := by
  obtain ⟨isMark, nonempty, digits⟩ := wellFormed
  have mark : FreeOfSymbols [exponent.mark] := by
    refine freeOfSymbols_of_forall (List.cons_ne_nil _ _) ?_
    rw [List.forall_mem_singleton]
    rcases isMark with isMark | isMark <;> rw [isMark] <;> decide
  have digits := freeOfSymbols_digits nonempty digits
  rw [Numeral.Exponent.characters, ← List.singleton_append]
  cases exponent.sign with
  | absent => exact mark.append digits
  | plus => exact mark.operation (Token.written_self ['+']) digits
  | minus => exact mark.operation (Token.written_self ['-']) digits

/-- A numeral is free of symbols, although an exponent may have a sign. -/
theorem freeOfSymbols_numeral
    {numeral : Numeral}
    (wellFormed : numeral.WellFormed) :
    FreeOfSymbols numeral.characters := by
  obtain ⟨whole, fraction, exponent⟩ := numeral
  obtain ⟨nonempty, wholeDigits, fractionDigits, exponentFormed⟩ := wellFormed
  have front : FreeOfSymbols (whole ++ Numeral.fractionCharacters fraction) := by
    have wholeFree := freeOfSymbols_digits nonempty wholeDigits
    cases fraction with
    | none => rwa [Numeral.fractionCharacters, List.append_nil]
    | some digits =>
        refine wholeFree.append (freeOfSymbols_of_forall (List.cons_ne_nil _ _) ?_)
        refine List.forall_mem_cons.mpr ⟨by decide, fun digit member => ?_⟩
        have isDigit := fractionDigits digits rfl digit member
        exact not_mem_marks_of_isAlphanum (by simp [Char.isAlphanum, isDigit])
  cases exponent with
  | none => simpa [Numeral.characters] using front
  | some exponent =>
      exact front.append (freeOfSymbols_exponent (exponentFormed exponent rfl))

theorem freeOfSymbols_parenthesis
    (isParenthesis : character = '(' ∨ character = ')') :
    FreeOfSymbols [character] := by
  refine freeOfSymbols_of_forall (List.cons_ne_nil _ _) ?_
  rw [List.forall_mem_singleton]
  rcases isParenthesis with rfl | rfl <;> decide

/-- The steps of a phrase, on either side of their names. -/
def Phrase.HasNoStep (phrase : Phrase) : Prop :=
  ∀ side, phrase.steps side = []

theorem Phrase.HasNoStep.binary
    {operator : Operator}
    {left right : Phrase}
    (noStep : (Phrase.binary operator left right).HasNoStep) :
    left.HasNoStep ∧ right.HasNoStep :=
  ⟨fun side => (List.append_eq_nil_iff.mp (noStep side)).1,
    fun side => (List.append_eq_nil_iff.mp (noStep side)).2⟩

/-- The word of a calculation without steps. -/
theorem Derives.freeOfSymbols
    {names : List String}
    {category : Category}
    {phrase : Phrase}
    (derived : Derives names category word phrase)
    (notStatement : category ≠ .statement)
    (noStep : phrase.HasNoStep) :
    FreeOfSymbols word := by
  have opened {word : List Char} (written : Token.Written ['('] word) :=
    freeOfSymbols_of_written written (freeOfSymbols_parenthesis (.inl rfl))
  have closed {word : List Char} (written : Token.Written [')'] word) :=
    freeOfSymbols_of_written written (freeOfSymbols_parenthesis (.inr rfl))
  induction derived with
  | assignment => exact absurd rfl notStatement
  | operatorAssignment => exact absurd rfl notStatement
  | calculation => exact absurd rfl notStatement
  | oneTerm _ productHypothesis => exact productHypothesis nofun noStep
  | moreTerms _ _ symbolWritten _ leftHypothesis rightHypothesis =>
      rw [Operator.symbol_toList] at symbolWritten
      exact (leftHypothesis nofun noStep.binary.1).operation symbolWritten
        (rightHypothesis nofun noStep.binary.2)
  | oneFactor _ factorHypothesis => exact factorHypothesis nofun noStep
  | moreFactors _ _ symbolWritten _ leftHypothesis rightHypothesis =>
      rw [Operator.symbol_toList] at symbolWritten
      exact (leftHypothesis nofun noStep.binary.1).operation symbolWritten
        (rightHypothesis nofun noStep.binary.2)
  | function _ functionHypothesis => exact functionHypothesis nofun noStep
  | operand _ operandHypothesis => exact operandHypothesis nofun noStep
  | power _ caretWritten _ baseHypothesis exponentHypothesis =>
      exact (baseHypothesis nofun noStep.binary.1).operation caretWritten
        (exponentHypothesis nofun noStep.binary.2)
  | group openWritten _ closeWritten innerHypothesis =>
      exact (opened openWritten).append
        ((innerHypothesis nofun noStep).append (closed closeWritten))
  | var isIdentifier nameWritten =>
      exact freeOfSymbols_of_written nameWritten (freeOfSymbols_name isIdentifier)
  | number wellFormed numeralWritten =>
      exact freeOfSymbols_of_written numeralWritten
        (freeOfSymbols_numeral wellFormed)
  | stepBefore => simpa [Phrase.steps] using noStep .before
  | stepAfter => simpa [Phrase.steps] using noStep .after
  | @call function _ _ _ _ _ nameWritten openWritten _ closeWritten
      argumentHypothesis =>
      have name := freeOfSymbols_of_written nameWritten
        (freeOfSymbols_name function.isIdentifier_name)
      exact name.append ((opened openWritten).append
        ((argumentHypothesis nofun noStep).append (closed closeWritten)))

/-- A text that derives a phrase without steps which is no assignment by an
operator. -/
theorem DerivesText.needsNoName
    {names : List String}
    {phrase : Phrase}
    (derivesText : DerivesText names text phrase)
    (noStep : phrase.HasNoStep)
    (noOperator : ∀ target operator value,
      phrase ≠ .operatorAssignment target operator value) :
    NeedsNoName text := by
  obtain ⟨word, blanks, derived, blank, rfl⟩ := derivesText
  have wordFree : FreeOfSymbols word := by
    cases derived with
    | assignment isIdentifier nameWritten symbolWritten valueDerived =>
        have name := freeOfSymbols_of_written nameWritten
          (freeOfSymbols_name isIdentifier)
        exact name.operation symbolWritten
          (valueDerived.freeOfSymbols nofun noStep)
    | operatorAssignment => exact absurd rfl (noOperator _ _ _)
    | calculation sumDerived => exact sumDerived.freeOfSymbols nofun noStep
  have behind : blanks.IsChain Unjoined := isChain_of_forall
    fun character member => not_mem_marks_of_isBlank (blank character member)
  apply needsNoName_of_isChain
  exact wordFree.unjoined.append behind fun last isLast _ _ =>
    unjoined_of_not_mem (.inl (wordFree.last last isLast))

end Grammar

namespace Statement

open Grammar (NeedsNoName)

/-- A text that needs no bound name is read alike in all environments. -/
theorem parse?_eq_of_needsNoName
    {text : String}
    (needsNoName : NeedsNoName text.toList)
    (left right : Environment) :
    parse? text left = parse? text right := by
  refine parse?_eq_of_coupling (Grammar.unbound left right) ?_ ?_
    ⟨rfl, needsNoName⟩ ⟨rfl, rfl⟩
  · rintro steps steps' ⟨rfl, rfl⟩
    rfl
  · exact fun _ _ trees => trees.1

end Statement

end LineCalculator
