import LineCalculator.Proofs.Grammar.FactorCompleteness

/-!
# Spaced texts

In a spaced text one blank stands on both sides of every operator, and no other
blanks. There an operator is never taken for half of a step, as it may be in
`a+++b`. How far a sum, a product or a factor reaches depends on the operators
that may follow it.
-/

namespace LineCalculator

open Token (first?)

/-- An operator between two blanks. -/
def Operator.between (operator : Operator) : List Char :=
  [' ', operator.mark, ' ']

/-- An operator stands between two spaces. -/
theorem Operator.between_eq (operator : Operator) :
    operator.between = ' ' :: (operator.symbol.toList ++ [' ']) := by
  cases operator <;> rfl

/-- Operators are told apart by their marks. -/
theorem Operator.mark_injective {first second : Operator}
    (same : first.mark = second.mark) :
    first = second := by
  revert same
  cases first <;> cases second <;> decide

namespace Grammar

/-- The spaced texts of each category, for given bound names, and the trees that
they spell. Spaced texts have no steps before names. -/
inductive Spaced
    (names : List String) : Category → List Char → Expr → Prop
  | number {numeral : Numeral}
      (wellFormed : numeral.WellFormed) :
      Spaced names .operand numeral.characters (.literal numeral.toFloat)
  | var {name : String}
      (isIdentifier : Token.IsIdentifier name.toList) :
      Spaced names .operand name.toList (.var name)
  | group {text tree}
      (inner : Spaced names .sum text tree) :
      Spaced names .operand (['('] ++ (text ++ [')'])) tree
  | stepAfter {name : String}
      (bound : name ∈ names)
      (step : Step) :
      Spaced names .function (name.toList ++ step.symbol.toList)
        (.postStep name step)
  | call (function : MathFunction) {text tree}
      (argument : Spaced names .sum text tree) :
      Spaced names .function
        (function.name.toList ++ (['('] ++ (text ++ [')'])))
        (.call function.name tree)
  | function {text tree}
      (spaced : Spaced names .function text tree) :
      Spaced names .factor text tree
  | operand {text tree}
      (spaced : Spaced names .operand text tree) :
      Spaced names .factor text tree
  | power {baseText base exponentText exponent}
      (baseSpaced : Spaced names .operand baseText base)
      (exponentSpaced : Spaced names .factor exponentText exponent) :
      Spaced names .factor
        (baseText ++ (Operator.exponentiation.between ++ exponentText))
        (.binary .exponentiation base exponent)
  | oneFactor {text tree}
      (spaced : Spaced names .factor text tree) :
      Spaced names .product text tree
  | moreFactors {operator leftText left rightText right}
      (multiplicative : operator ∈ Operator.multiplicative)
      (leftSpaced : Spaced names .product leftText left)
      (rightSpaced : Spaced names .factor rightText right) :
      Spaced names .product (leftText ++ (operator.between ++ rightText))
        (.binary operator left right)
  | oneTerm {text tree}
      (spaced : Spaced names .product text tree) :
      Spaced names .sum text tree
  | moreTerms {operator leftText left rightText right}
      (additive : operator ∈ Operator.additive)
      (leftSpaced : Spaced names .sum leftText left)
      (rightSpaced : Spaced names .product rightText right) :
      Spaced names .sum (leftText ++ (operator.between ++ rightText))
        (.binary operator left right)

/-- The category of the operations of an operator. -/
def ofOperator : Operator → Category
  | .addition | .subtraction => .sum
  | .multiplication | .division | .modulus => .product
  | .exponentiation => .factor

/-- The category of what stands to the left of an operator. -/
def leftOf : Operator → Category
  | .addition | .subtraction => .sum
  | .multiplication | .division | .modulus => .product
  | .exponentiation => .operand

/-- The category of what stands to the right of an operator. -/
def rightOf : Operator → Category
  | .addition | .subtraction => .product
  | .multiplication | .division | .modulus | .exponentiation => .factor

namespace Spaced

variable
  {names : List String}
  {operator : Operator}
  {text leftText rightText : List Char}
  {tree left right : Expr}

/-- An operand may stand on the left of every operator. -/
theorem left_of_operand (spaced : Spaced names .operand text tree) :
    Spaced names (leftOf operator) text tree := by
  cases operator with
  | addition | subtraction => exact .oneTerm (.oneFactor (.operand spaced))
  | multiplication | division | modulus => exact .oneFactor (.operand spaced)
  | exponentiation => exact spaced

/-- An operation is a sum, whatever its operator. -/
theorem sum_of_operator
    (spaced : Spaced names (ofOperator operator) text tree) :
    Spaced names .sum text tree := by
  cases operator with
  | addition | subtraction => exact spaced
  | multiplication | division | modulus => exact .oneTerm spaced
  | exponentiation => exact .oneTerm (.oneFactor spaced)

/-- A factor may stand on the right of every operator. -/
theorem right_of_factor (spaced : Spaced names .factor text tree) :
    Spaced names (rightOf operator) text tree := by
  cases operator with
  | addition | subtraction => exact .oneFactor spaced
  | multiplication | division | modulus | exponentiation => exact spaced

/-- An operation is spaced when its two sides may stand there. -/
theorem binary
    (leftSpaced : Spaced names (leftOf operator) leftText left)
    (rightSpaced : Spaced names (rightOf operator) rightText right) :
    Spaced names (ofOperator operator)
      (leftText ++ (operator.between ++ rightText))
      (.binary operator left right) := by
  cases operator with
  | addition | subtraction =>
      exact .moreTerms (by decide) leftSpaced rightSpaced
  | multiplication | division | modulus =>
      exact .moreFactors (by decide) leftSpaced rightSpaced
  | exponentiation => exact .power leftSpaced rightSpaced

end Spaced

/-- A text that is closed or goes on with one of the given operators between
blanks. -/
def SetOff (operators : List Operator) (text : List Char) : Prop :=
  Closes text ∨
    ∃ operator ∈ operators, ∃ after, text = operator.between ++ after

variable
  {operators others : List Operator}
  {operator : Operator}
  {text rest : List Char}

theorem skipBlanks_between (operator : Operator) (text : List Char) :
    skipBlanks (operator.between ++ text) = operator.mark :: ' ' :: text := by
  have blank : isBlank ' ' = true := by decide
  exact (skipBlanks_cons_of_isBlank _ blank).trans
    (skipBlanks_cons_of_not_isBlank _ operator.isBlank_mark)

/-- A spaced operator shows its mark first. -/
theorem first?_between (operator : Operator) (text : List Char) :
    first? (operator.between ++ text) = some operator.mark := by
  rw [first?, skipBlanks_between]
  rfl

/-- A text that starts with a spaced operator is set off by it. -/
theorem setOff_between
    (member : operator ∈ operators)
    (text : List Char) :
    SetOff operators (operator.between ++ text) :=
  .inr ⟨operator, member, text, rfl⟩

namespace SetOff

theorem mono
    (setOff : SetOff operators text)
    (subset : operators ⊆ others) :
    SetOff others text := by
  rcases setOff with closes | ⟨operator, member, after, rfl⟩
  · exact .inl closes
  · exact setOff_between (subset member) after

/-- A text that is set off can follow a factor. -/
theorem follows (setOff : SetOff operators text) : Follows text := by
  intro first isFirst
  rcases setOff with closes | ⟨operator, -, after, rfl⟩
  · exact .inl (closes first isFirst)
  · rw [first?_between, Option.mem_some_iff] at isFirst
    exact .inr ⟨operator, isFirst.symm⟩

/-- The blank behind an operator keeps it from being half of a step. -/
theorem noStep (setOff : SetOff operators text) :
    Token.anyOf Step.symbol Step.all text = none := by
  rcases setOff with closes | ⟨operator, -, after, rfl⟩
  · apply stepSymbol_eq_none
    intro first isFirst step
    rw [closes first isFirst]
    cases step <;> decide
  · rcases read : Token.anyOf Step.symbol Step.all (operator.between ++ after)
      with _ | ⟨step, rest⟩
    · rfl
    · have split := Token.split_of_anyOf read
      rw [skipBlanks_between, step.symbol_toList] at split
      simp only [List.cons_append, List.nil_append, List.cons.injEq] at split
      have blank := step.isBlank_mark
      rw [split.2.1] at blank
      exact absurd blank (by decide)

/-- Only an operator that may follow does. -/
theorem first?_ne_mark
    (setOff : SetOff operators text)
    (apart : operator ∉ operators) :
    first? text ≠ some operator.mark := by
  intro isFirst
  rcases setOff with closes | ⟨other, member, after, rfl⟩
  · have closing := closes operator.mark isFirst
    cases operator <;> exact absurd closing (by decide)
  · rw [first?_between, Option.some.injEq] at isFirst
    exact apart (Operator.mark_injective isFirst ▸ member)

/-- No other operator is found in a text that is set off by some operators. -/
theorem operatorSymbol_eq_none
    (setOff : SetOff operators text)
    (apart : ∀ other ∈ others, other ∉ operators) :
    Token.anyOf Operator.symbol others text = none := by
  apply Token.anyOf_eq_none
  intro other member
  rw [other.symbol_toList]
  exact setOff.first?_ne_mark (apart other member)

end SetOff

/-- An operator is read from between its blanks. -/
theorem operatorSymbol_between
    (member : operator ∈ operators)
    (text : List Char) :
    Token.anyOf Operator.symbol operators (operator.between ++ text) =
      some (operator, ' ' :: text) := by
  have found : Token.literal operator.symbol (operator.between ++ text) =
      some ((), ' ' :: text) := by
    rw [Token.literal_eq_some_iff, skipBlanks_between, operator.symbol_toList]
    exact ⟨List.cons_ne_nil _ _, rfl⟩
  refine Token.anyOf_eq_some member found (List.pairwise_of_forall ?_)
  rintro other _ rfl
  rcases otherFound : Token.literal other.symbol (Operator.between _ ++ text)
    with _ | ⟨value, rest⟩
  · exact .inl rfl
  · have split := (Token.literal_eq_some_iff.mp otherFound).2
    rw [skipBlanks_between, other.symbol_toList] at split
    exact .inr (Operator.mark_injective (List.cons.inj split).1)

end Grammar

end LineCalculator
