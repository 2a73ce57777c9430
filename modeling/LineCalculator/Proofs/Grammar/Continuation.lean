import LineCalculator.Proofs.Grammar.Derivation
import LineCalculator.Proofs.Number.NumeralReading

/-!
# What follows a factor

A sum is a chain of factors joined by the operators of sums and products, so
what follows one of its factors is the rest of that chain. In `a+++b` the chain
may be divided as `a + ++b` or as `a++ + b`: where the rest of a chain starts
with the symbol of a step, taking that symbol leaves the rest of a chain again.
-/

namespace LineCalculator

/-- The character that the symbol of a step repeats. -/
def Step.mark : Step → Char
  | .increment => '+'
  | .decrement => '-'

theorem Step.symbol_toList (step : Step) :
    step.symbol.toList = [step.mark, step.mark] := by
  cases step <;> rfl

theorem Step.isBlank_mark (step : Step) : isBlank step.mark = false := by
  cases step <;> decide

theorem Step.visible_symbol (step : Step) :
    Token.Visible step.symbol.toList :=
  ⟨step.mark, by simp [step.symbol_toList], step.isBlank_mark⟩

/-- No mark is a parenthesis, a letter or a digit. -/
theorem Step.ne_mark
    {character : Char}
    (kind : character = '(' ∨ character.isAlphanum = true)
    (step : Step) :
    character ≠ step.mark := by
  rintro rfl
  revert kind
  cases step <;> decide

/-- The character that is the symbol of an operator. -/
def Operator.mark : Operator → Char
  | .addition => '+'
  | .subtraction => '-'
  | .multiplication => '*'
  | .division => '/'
  | .exponentiation => '^'
  | .modulus => '%'

theorem Operator.symbol_toList (operator : Operator) :
    operator.symbol.toList = [operator.mark] := by
  cases operator <;> rfl

theorem Operator.isBlank_mark (operator : Operator) :
    isBlank operator.mark = false := by
  cases operator <;> decide

theorem Operator.visible_symbol (operator : Operator) :
    Token.Visible operator.symbol.toList :=
  ⟨operator.mark, by simp [operator.symbol_toList], operator.isBlank_mark⟩

/-- The symbol of an assignment with an operator is the mark of the operator
and an equals sign. -/
theorem Operator.compoundSymbol_toList (operator : Operator) :
    operator.compoundSymbol.toList = [operator.mark, '='] := by
  cases operator <;> rfl

theorem Operator.visible_compoundSymbol (operator : Operator) :
    Token.Visible operator.compoundSymbol.toList :=
  ⟨operator.mark, by cases operator <;> rfl, operator.isBlank_mark⟩

/-- The name of a function could be the name of a variable. -/
theorem MathFunction.isIdentifier_name (function : MathFunction) :
    Token.IsIdentifier function.name.toList := by
  cases function <;> decide

namespace Grammar

open Token (Written first? Stops)

/-- The operators that join the factors of a sum. -/
def joining : List Operator :=
  Operator.additive ++ Operator.multiplicative

/-- A text in which nothing, or a closing parenthesis, follows the blanks. -/
def Closes (text : List Char) : Prop :=
  ∀ first ∈ first? text, first = ')'

/-- A text that goes on as what can follow an operand does. -/
def Follows (text : List Char) : Prop :=
  ∀ first ∈ first? text,
    first = ')' ∨ ∃ operator : Operator, first = operator.mark

/-- A text is the rest of a chain of factors and of a text that closes it. -/
inductive Continues (names : List String) : List Char → List Char → Prop
  | close {rest}
      (closes : Closes rest) :
      Continues names rest rest
  | step {operator symbolWord factorWord phrase text rest}
      (member : operator ∈ joining)
      (symbolWritten : Written operator.symbol.toList symbolWord)
      (factorDerived : Derives names .factor factorWord phrase)
      (continues : Continues names text rest) :
      Continues names (symbolWord ++ (factorWord ++ text)) rest

/-- A text is a chain of factors and a text that closes it. -/
def Joined (names : List String) (text rest : List Char) : Prop :=
  ∃ factorWord phrase after, Derives names .factor factorWord phrase ∧
    factorWord ++ after = text ∧ Continues names after rest

variable {names : List String} {word text rest : List Char} {phrase : Phrase}

/-- A text behind an operator that joins it continues the calculation. -/
theorem Joined.continues
    {operator : Operator}
    {symbolWord : List Char}
    (joined : Joined names text rest)
    (member : operator ∈ joining)
    (symbolWritten : Written operator.symbol.toList symbolWord) :
    Continues names (symbolWord ++ text) rest := by
  obtain ⟨factorWord, phrase, after, derived, rfl, continues⟩ := joined
  exact .step member symbolWritten derived continues

/-- The rest of a chain that starts with an operator goes on as a chain behind
that operator. -/
theorem Continues.joined
    {operator : Operator}
    {after : List Char}
    (continues : Continues names text rest)
    (split : operator.mark :: after = skipBlanks text) :
    Joined names after rest := by
  cases continues with
  | close closes =>
      have closing := closes operator.mark (by simp [first?, ← split])
      cases operator <;> simp [Operator.mark] at closing
  | @step other symbolWord factorWord phrase text _ _ symbolWritten derived
      continues =>
      rw [symbolWritten.skipBlanks_append other.visible_symbol,
        other.symbol_toList] at split
      simp only [List.cons_append, List.nil_append, List.cons.injEq] at split
      exact ⟨factorWord, phrase, text, derived, split.2.symm, continues⟩

/-- The rest of a chain in which no operator follows is what closes the chain. -/
theorem Continues.eq_of_none
    (continues : Continues names text rest)
    (noTerm : Token.anyOf Operator.symbol Operator.additive text = none)
    (noFactor : Token.anyOf Operator.symbol Operator.multiplicative text = none) :
    text = rest := by
  cases continues with
  | close _ => rfl
  | @step operator symbolWord factorWord _ text _ member symbolWritten _ _ =>
      have found := symbolWritten.literal_append operator.visible_symbol
        (factorWord ++ text)
      rcases List.mem_append.mp member with additive | multiplicative
      · rw [Token.anyOf_eq_some_of_distinct (by decide) additive found] at noTerm
        simp at noTerm
      · rw [Token.anyOf_eq_some_of_distinct (by decide) multiplicative found]
          at noFactor
        simp at noFactor

/-- A written closing parenthesis closes. -/
theorem closes_of_written
    {closeWord : List Char}
    (closeWritten : Written [')'] closeWord)
    (text : List Char) :
    Closes (closeWord ++ text) := by
  intro first isFirst
  rw [closeWritten.first?_append ⟨')', rfl, by decide⟩] at isFirst
  simpa using isFirst.symm

/-- A text that continues a calculation can follow a factor. -/
theorem Continues.follows (continues : Continues names text rest) :
    Follows text := by
  cases continues with
  | close closes => exact fun first isFirst => .inl (closes first isFirst)
  | @step operator _ _ _ _ _ _ symbolWritten _ _ =>
      intro first isFirst
      rw [symbolWritten.first?_append operator.visible_symbol,
        operator.symbol_toList] at isFirst
      simp only [List.head?_cons, Option.mem_some_iff] at isFirst
      exact .inr ⟨operator, isFirst.symm⟩

/-- No power is left open in front of the rest of a chain. -/
theorem Continues.first?_ne_caret (continues : Continues names text rest) :
    first? text ≠ some '^' := by
  intro isFirst
  cases continues with
  | close closes => exact absurd (closes '^' isFirst) (by decide)
  | @step operator _ _ _ _ _ member symbolWritten _ _ =>
      rw [symbolWritten.first?_append operator.visible_symbol,
        operator.symbol_toList] at isFirst
      revert member isFirst
      cases operator <;> decide

/-- What can follow a factor ends a word. -/
theorem Follows.stops (follows : Follows text) :
    Stops Char.isAlphanum text := by
  apply Token.stops_of_first?
  intro first isFirst
  rcases follows first isFirst with rfl | ⟨operator, rfl⟩
  · decide
  · cases operator <;> decide

/-- What can follow a factor does not start with an opening parenthesis. -/
theorem Follows.ne_open (follows : Follows text) : first? text ≠ some '(' := by
  intro isFirst
  rcases follows '(' isFirst with closing | ⟨operator, isMark⟩
  · exact absurd closing (by decide)
  · revert isMark
    cases operator <;> decide

/-- What can follow a factor does not start with a point, so no fraction goes
on there. -/
theorem Follows.ne_point (follows : Follows text) :
    ∀ character ∈ text.head?, character ≠ '.' := by
  apply Token.forall_head?_of_first?
  · rintro _ blank rfl
    revert blank
    decide
  · intro first isFirst
    rcases follows first isFirst with rfl | ⟨operator, rfl⟩
    · decide
    · cases operator <;> decide

/-- A product is a chain of factors, whatever may follow it. -/
theorem Joined.of_product
    (derived : Derives names .product word phrase)
    (continues : Continues names text rest) :
    Joined names (word ++ text) rest := by
  generalize isProduct : Category.product = category at derived
  induction derived generalizing text with
  | oneFactor factorDerived =>
      exact ⟨_, _, text, factorDerived, rfl, continues⟩
  | moreFactors multiplicative _ symbolWritten rightDerived leftHypothesis =>
      have member := List.mem_append_right Operator.additive multiplicative
      have later := Continues.step member symbolWritten rightDerived continues
      simpa only [List.append_assoc] using leftHypothesis later rfl
  | _ => cases isProduct

/-- A sum is a chain of factors, whatever may follow it. -/
theorem Joined.of_sum
    (derived : Derives names .sum word phrase)
    (continues : Continues names text rest) :
    Joined names (word ++ text) rest := by
  generalize isSum : Category.sum = category at derived
  induction derived generalizing text with
  | oneTerm productDerived => exact .of_product productDerived continues
  | moreTerms additive _ symbolWritten rightDerived leftHypothesis =>
      have member := List.mem_append_left Operator.multiplicative additive
      have later :=
        (Joined.of_product rightDerived continues).continues member symbolWritten
      simpa only [List.append_assoc] using leftHypothesis later rfl
  | _ => cases isSum

/-- An operand is a name or does not start with a letter. -/
theorem Derives.name_or_first
    (derived : Derives names .operand word phrase)
    (text : List Char) :
    (∃ name : String, Token.IsIdentifier name.toList ∧
      Written name.toList word) ∨
    ∃ first ∈ first? (word ++ text), first = '(' ∨ first.isDigit = true := by
  cases derived with
  | group openWritten _ _ =>
      refine .inr ⟨'(', ?_, .inl rfl⟩
      rw [List.append_assoc, openWritten.first?_append ⟨'(', rfl, by decide⟩]
      rfl
  | @var name _ isIdentifier written =>
      exact .inl ⟨name, isIdentifier, written⟩
  | number wellFormed written =>
      obtain ⟨first, isFirst, digit⟩ := wellFormed.exists_first
      refine .inr ⟨first, ?_, .inr digit⟩
      rwa [written.first?_append wellFormed.visible]

/-- An operand starts with an opening parenthesis, a letter or a digit. -/
theorem Derives.first_of_operand
    (derived : Derives names .operand word phrase)
    (text : List Char) :
    ∃ first ∈ first? (word ++ text),
      first = '(' ∨ first.isAlphanum = true := by
  rcases derived.name_or_first text with
    ⟨name, isIdentifier, written⟩ | ⟨first, isFirst, kind⟩
  · obtain ⟨first, isFirst, alpha⟩ := isIdentifier.exists_first
    refine ⟨first, ?_, .inr (isAlphanum_iff.mpr (.inl alpha))⟩
    rwa [written.first?_append isIdentifier.visible]
  · exact ⟨first, isFirst, kind.imp_right fun digit =>
      isAlphanum_iff.mpr (.inr digit)⟩

/-- A word of a factor is a step before a name, or it does not start with the
mark of a step. -/
theorem Derives.stepBefore_or_first
    (derived : Derives names .factor word phrase)
    (text : List Char) :
    (∃ (step : Step) (name : String) (symbolWord nameWord : List Char),
      symbolWord ++ nameWord = word ∧
      Written step.symbol.toList symbolWord ∧
      Token.IsIdentifier name.toList ∧ Written name.toList nameWord) ∨
    ∃ first ∈ first? (word ++ text), first = '(' ∨ first.isAlphanum = true := by
  cases derived with
  | function functionDerived =>
      cases functionDerived with
      | @stepBefore step name _ _ isIdentifier _ symbolWritten nameWritten =>
          exact .inl ⟨step, name, _, _, rfl, symbolWritten, isIdentifier,
            nameWritten⟩
      | stepAfter isIdentifier _ nameWritten _ =>
          right
          obtain ⟨first, isFirst, alpha⟩ := isIdentifier.exists_first
          refine ⟨first, ?_, .inr (isAlphanum_iff.mpr (.inl alpha))⟩
          rwa [List.append_assoc,
            nameWritten.first?_append isIdentifier.visible]
      | @call function _ _ _ _ _ nameWritten _ _ _ =>
          right
          have isIdentifier := function.isIdentifier_name
          obtain ⟨first, isFirst, alpha⟩ := isIdentifier.exists_first
          refine ⟨first, ?_, .inr (isAlphanum_iff.mpr (.inl alpha))⟩
          rwa [List.append_assoc,
            nameWritten.first?_append isIdentifier.visible]
  | operand operandDerived => exact .inr (operandDerived.first_of_operand text)
  | power baseDerived _ _ =>
      right
      rw [List.append_assoc]
      exact baseDerived.first_of_operand _

/-- Behind the symbol of a step in front of the rest of a chain stands the rest
of a chain: the second mark is the operator, or else the first mark was and the
step stands before a name, which can also be read without it. -/
theorem Continues.after_step
    {step : Step}
    {after : List Char}
    (continues : Continues names text rest)
    (split : step.symbol.toList ++ after = skipBlanks text) :
    Continues names after rest := by
  rw [step.symbol_toList] at split
  cases continues with
  | close closes =>
      have closing := closes step.mark (by simp [first?, ← split])
      cases step <;> simp [Step.mark] at closing
  | @step operator symbolWord factorWord phrase text _ member symbolWritten
      derived continues =>
      rw [symbolWritten.skipBlanks_append operator.visible_symbol,
        operator.symbol_toList] at split
      simp only [List.cons_append, List.nil_append, List.cons.injEq] at split
      obtain ⟨sameMark, split⟩ := split
      have notBlank := step.isBlank_mark
      rcases derived.stepBefore_or_first text with
        ⟨other, name, stepWord, nameWord, rfl, stepWritten, isIdentifier,
          nameWritten⟩ | ⟨first, isFirst, kind⟩
      · -- the step before the name starts with the second mark
        obtain ⟨blanks, blank, rfl⟩ := stepWritten
        rw [other.symbol_toList] at split
        rcases blanks with _ | ⟨head, blanks⟩
        · simp only [List.nil_append, List.cons_append, List.cons.injEq] at split
          obtain ⟨otherMark, rfl⟩ := split
          have symbol : Written operator.symbol.toList [other.mark] := by
            refine ⟨[], by simp, ?_⟩
            rw [operator.symbol_toList, ← sameMark, otherMark]
            rfl
          exact .step member symbol (.operand (.var isIdentifier nameWritten))
            continues
        · simp only [List.cons_append, List.cons.injEq] at split
          have headBlank := blank head List.mem_cons_self
          simp [← split.1, notBlank] at headBlank
      · rw [← split, first?, skipBlanks_cons_of_not_isBlank _ notBlank] at isFirst
        simp only [List.head?_cons, Option.mem_some_iff] at isFirst
        exact absurd isFirst.symm (step.ne_mark kind)

end Grammar

end LineCalculator
