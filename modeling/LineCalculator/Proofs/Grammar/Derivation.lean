import LineCalculator.Proofs.Token.Spelling
import LineCalculator.Statement

/-!
# Derivations

The grammar of statements as a context-free grammar over characters.

    statement := name "=" sum | bound name compound symbol sum | sum
    sum       := product | sum ("+" | "-") product
    product   := factor | product ("*" | "/" | "%") factor
    factor    := function | operand | operand "^" factor
    operand   := "(" sum ")" | name | numeral
    function  := step bound name | bound name step | function name "(" sum ")"

Blanks may stand in front of every token and behind the statement. Nothing is
said here about the order of alternatives or about how far a token reaches. A
derivation carries the phrase that it derives, which groups sums and products to
the left and powers to the right, and a phrase has a value: a tree and the steps
that stand before its names.
-/

namespace LineCalculator

namespace Grammar

/-- What a derivation derives. -/
inductive Phrase
  | number (numeral : Numeral)
  | var (name : String)
  | stepBefore (step : Step) (name : String)
  | stepAfter (name : String) (step : Step)
  | call (function : MathFunction) (argument : Phrase)
  | binary (operator : Operator) (left right : Phrase)
  | assignment (target : String) (value : Phrase)
  | operatorAssignment (target : String) (operator : Operator) (value : Phrase)

/-- The tree of a phrase, and the steps behind those that are given. A step
before a name stands for the value that the name has after all steps up to and
including this one. -/
def Phrase.read
    (environment : Environment) :
    Phrase → List StagedStep → Expr × List StagedStep
  | .number numeral, steps => (.literal numeral.toFloat, steps)
  | .var name, steps => (.var name, steps)
  | .stepBefore step name, steps =>
      let steps := steps ++ [⟨name, step⟩]
      (.literal ((environment.applySteps steps).lookup name), steps)
  | .stepAfter name step, steps => (.postStep name step, steps)
  | .call function argument, steps =>
      let (argument, steps) := argument.read environment steps
      (.call function.name argument, steps)
  | .binary operator left right, steps =>
      let (left, steps) := left.read environment steps
      let (right, steps) := right.read environment steps
      (.binary operator left right, steps)
  | .assignment target value, steps =>
      let (value, steps) := value.read environment steps
      (.assignment target value, steps)
  | .operatorAssignment target operator value, steps =>
      let (value, steps) := value.read environment steps
      (.assignment target (.binary operator (.var target) value), steps)

/-- The categories of the grammar. -/
inductive Category
  | statement
  | sum
  | product
  | factor
  | operand
  | function

/-- The words of each category and the phrases they derive, for given bound
names. -/
inductive Derives
    (names : List String) : Category → List Char → Phrase → Prop
  | assignment {target value nameWord symbolWord valueWord}
      (isIdentifier : Token.IsIdentifier target.toList)
      (nameWritten : Token.Written target.toList nameWord)
      (symbolWritten : Token.Written ['='] symbolWord)
      (valueDerived : Derives names .sum valueWord value) :
      Derives names .statement (nameWord ++ (symbolWord ++ valueWord))
        (.assignment target value)
  | operatorAssignment {target operator value nameWord symbolWord valueWord}
      (isIdentifier : Token.IsIdentifier target.toList)
      (bound : target ∈ names)
      (nameWritten : Token.Written target.toList nameWord)
      (symbolWritten : Token.Written operator.compoundSymbol.toList symbolWord)
      (valueDerived : Derives names .sum valueWord value) :
      Derives names .statement (nameWord ++ (symbolWord ++ valueWord))
        (.operatorAssignment target operator value)
  | calculation {word phrase}
      (sumDerived : Derives names .sum word phrase) :
      Derives names .statement word phrase
  | oneTerm {word phrase}
      (productDerived : Derives names .product word phrase) :
      Derives names .sum word phrase
  | moreTerms {left operator right leftWord symbolWord rightWord}
      (additive : operator ∈ Operator.additive)
      (leftDerived : Derives names .sum leftWord left)
      (symbolWritten : Token.Written operator.symbol.toList symbolWord)
      (rightDerived : Derives names .product rightWord right) :
      Derives names .sum (leftWord ++ (symbolWord ++ rightWord))
        (.binary operator left right)
  | oneFactor {word phrase}
      (factorDerived : Derives names .factor word phrase) :
      Derives names .product word phrase
  | moreFactors {left operator right leftWord symbolWord rightWord}
      (multiplicative : operator ∈ Operator.multiplicative)
      (leftDerived : Derives names .product leftWord left)
      (symbolWritten : Token.Written operator.symbol.toList symbolWord)
      (rightDerived : Derives names .factor rightWord right) :
      Derives names .product (leftWord ++ (symbolWord ++ rightWord))
        (.binary operator left right)
  | function {word phrase}
      (functionDerived : Derives names .function word phrase) :
      Derives names .factor word phrase
  | operand {word phrase}
      (operandDerived : Derives names .operand word phrase) :
      Derives names .factor word phrase
  | power {base exponent baseWord symbolWord exponentWord}
      (baseDerived : Derives names .operand baseWord base)
      (symbolWritten : Token.Written ['^'] symbolWord)
      (exponentDerived : Derives names .factor exponentWord exponent) :
      Derives names .factor (baseWord ++ (symbolWord ++ exponentWord))
        (.binary .exponentiation base exponent)
  | group {inner openWord innerWord closeWord}
      (openWritten : Token.Written ['('] openWord)
      (innerDerived : Derives names .sum innerWord inner)
      (closeWritten : Token.Written [')'] closeWord) :
      Derives names .operand (openWord ++ (innerWord ++ closeWord)) inner
  | var {name word}
      (isIdentifier : Token.IsIdentifier name.toList)
      (nameWritten : Token.Written name.toList word) :
      Derives names .operand word (.var name)
  | number {numeral word}
      (wellFormed : numeral.WellFormed)
      (numeralWritten : Token.Written numeral.characters word) :
      Derives names .operand word (.number numeral)
  | stepBefore {step name symbolWord nameWord}
      (isIdentifier : Token.IsIdentifier name.toList)
      (bound : name ∈ names)
      (symbolWritten : Token.Written step.symbol.toList symbolWord)
      (nameWritten : Token.Written name.toList nameWord) :
      Derives names .function (symbolWord ++ nameWord) (.stepBefore step name)
  | stepAfter {name step nameWord symbolWord}
      (isIdentifier : Token.IsIdentifier name.toList)
      (bound : name ∈ names)
      (nameWritten : Token.Written name.toList nameWord)
      (symbolWritten : Token.Written step.symbol.toList symbolWord) :
      Derives names .function (nameWord ++ symbolWord) (.stepAfter name step)
  | call {function argument nameWord openWord argumentWord closeWord}
      (nameWritten : Token.Written function.name.toList nameWord)
      (openWritten : Token.Written ['('] openWord)
      (argumentDerived : Derives names .sum argumentWord argument)
      (closeWritten : Token.Written [')'] closeWord) :
      Derives names .function
        (nameWord ++ (openWord ++ (argumentWord ++ closeWord)))
        (.call function argument)

/-- A whole text derives a phrase when a statement and blanks behind it make up
the text. -/
def DerivesText
    (names : List String)
    (text : List Char)
    (phrase : Phrase) : Prop :=
  ∃ word blanks, Derives names .statement word phrase ∧
    (∀ character ∈ blanks, isBlank character = true) ∧ word ++ blanks = text

end Grammar

end LineCalculator
