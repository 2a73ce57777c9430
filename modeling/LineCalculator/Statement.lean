import LineCalculator.Grammar.Rule

/-!
# Statements

    statement  := assignment | sum
    assignment := name "=" sum | known name compound symbol sum
    sum        := product (("+" | "-") product)*
    product    := factor (("*" | "/" | "%") factor)*
    factor     := function | operand ("^" factor)?
    operand    := "(" sum ")" | name | numeral
    function   := ("++" | "--") known name | known name ("++" | "--")
                | function name "(" sum ")"

Alternatives are tried in the order written and the first one that is found
counts. Sums and products group to the left and powers to the right. Nothing
follows a function within a factor. Once an operator of a sum or product is
read, its right operand has to follow, or the whole sum or product fails; a
caret without a factor after it is given back.

A statement takes up the whole text. An assignment without an operator may
introduce its target; with an operator the target has to be bound.

A statement that has been read is a tree and the steps that stood before a
name. The tree already holds the values after those steps, and the steps change
the environment when they are applied, once and in the order of the text.
-/

namespace LineCalculator

namespace Grammar

/-- Read one of the bound names. -/
def knownName (scope : Scope σ) : Rule σ String :=
  token (Token.anyOf id scope.names)

/-- Read the symbol of a step. -/
def stepSymbol : Rule σ Step :=
  token (Token.anyOf Step.symbol Step.all)

/-- Read the symbol of one of several operators. -/
def operatorSymbol (operators : List Operator) : Rule σ Operator :=
  token (Token.anyOf Operator.symbol operators)

/-- A step before a known name. Its value is the value after the step, and the
step is noted. -/
def stepBefore (scope : Scope σ) : Rule σ Expr :=
  attempt scope do
    let step ← stepSymbol
    let name ← knownName scope
    let state ← get
    set { state with steps := scope.note state.steps name step }
    pure (.literal (step.apply (scope.value state.steps name)))

/-- A known name before a step, which is left to evaluation. -/
def stepAfter (scope : Scope σ) : Rule σ Expr :=
  attempt scope do
    let name ← knownName scope
    let step ← stepSymbol
    pure (.postStep name step)

/-- A sum between parentheses. -/
def group (scope : Scope σ) (entries : Entries σ) : Rule σ Expr :=
  attempt scope do
    token (Token.character '(')
    let inner ← entries .sum
    token (Token.character ')')
    pure inner

/-- The name of a function and its argument between parentheses. -/
def call (scope : Scope σ) (entries : Entries σ) : Rule σ Expr :=
  attempt scope do
    let function ← token (Token.anyOf MathFunction.name MathFunction.all)
    token (Token.character '(')
    let argument ← entries .sum
    token (Token.character ')')
    pure (.call function.name argument)

/-- A step on a known name or a call. -/
def function (scope : Scope σ) (entries : Entries σ) : Rule σ Expr :=
  stepBefore scope <|> stepAfter scope <|> call scope entries

/-- What can stand in front of a caret. -/
def operand (scope : Scope σ) (entries : Entries σ) : Rule σ Expr :=
  group scope entries <|>
    Expr.var <$> token Token.identifier <|>
    Expr.literal <$> token Token.number

/-- A caret and the factor that is the exponent. -/
def power
    (scope : Scope σ)
    (entries : Entries σ)
    (base : Expr) : Rule σ Expr :=
  attempt scope do
    token (Token.character '^')
    let exponent ← entries .factor
    pure (.binary .exponentiation base exponent)

/-- A function, or an operand that may be raised to a power. -/
def factor (scope : Scope σ) (entries : Entries σ) : Rule σ Expr :=
  function scope entries <|> do
    let base ← operand scope entries
    power scope entries base <|> pure base

/-- The operators and operands that follow, combined with the expression to the
left. Without an operator that expression is all; after an operator the rest is
left to `again`. -/
def more
    (operators : List Operator)
    (operand : Rule σ Expr)
    (again : Expr → Rule σ Expr)
    (left : Expr) : Rule σ Expr := do
  match ← optional (operatorSymbol operators) with
  | none => pure left
  | some operator =>
      let right ← operand
      again (.binary operator left right)

/-- An operand and the operators and operands that follow. -/
def chain
    (scope : Scope σ)
    (operators : List Operator)
    (operand : Rule σ Expr)
    (again : Expr → Rule σ Expr) : Rule σ Expr :=
  attempt scope do
    let left ← operand
    more operators operand again left

/-- One or more factors of a given kind. -/
def product
    (scope : Scope σ)
    (factor : Rule σ Expr)
    (entries : Entries σ) : Rule σ Expr :=
  chain scope Operator.multiplicative factor (entries ∘ .moreFactors)

/-- One or more products of such factors. -/
def sum
    (scope : Scope σ)
    (factor : Rule σ Expr)
    (entries : Entries σ) : Rule σ Expr :=
  chain scope Operator.additive (product scope factor entries)
    (entries ∘ .moreTerms)

/-- The rules for every entry of a grammar with a given rule for factors. -/
def rulesOver
    (scope : Scope σ)
    (factor : Entries σ → Rule σ Expr)
    (entries : Entries σ) : Entries σ
  | .sum => sum scope (factor entries) entries
  | .factor => factor entries
  | .moreTerms left =>
      more Operator.additive (product scope (factor entries) entries)
        (entries ∘ .moreTerms) left
  | .moreFactors left =>
      more Operator.multiplicative (factor entries)
        (entries ∘ .moreFactors) left

/-- The rules of calculations, tied together. -/
def calculations (scope : Scope σ) : Entries σ :=
  close (rulesOver scope (factor scope))

/-- A sum that takes up all of the text that remains. -/
def completeSum (scope : Scope σ) (entries : Entries σ) : Rule σ Expr :=
  attempt scope do
    let value ← entries .sum
    endOfText
    pure value

/-- The rest of an assignment without an operator. -/
def plainAssignment
    (scope : Scope σ)
    (entries : Entries σ)
    (target : String) : Rule σ Expr :=
  attempt scope do
    token (Token.character '=')
    let value ← completeSum scope entries
    pure (.assignment target value)

/-- The rest of an assignment with a given operator. -/
def operatorAssignment
    (scope : Scope σ)
    (entries : Entries σ)
    (target : String)
    (operator : Operator) : Rule σ Expr :=
  attempt scope do
    token (Token.literal operator.compoundSymbol)
    let value ← completeSum scope entries
    pure (.assignment target (.binary operator (.var target) value))

/-- The rest of an assignment with one of the operators, for a bound target. -/
def compoundAssignment
    (scope : Scope σ)
    (entries : Entries σ)
    (target : String) : Rule σ Expr :=
  if target ∈ scope.names then
    Operator.all.firstM (operatorAssignment scope entries target)
  else failure

/-- An assignment, with or without an operator. -/
def assignment (scope : Scope σ) (entries : Entries σ) : Rule σ Expr :=
  attempt scope do
    let target ← token Token.identifier
    plainAssignment scope entries target <|>
      compoundAssignment scope entries target

/-- A whole statement. -/
def statement (scope : Scope σ) (entries : Entries σ) : Rule σ Expr :=
  assignment scope entries <|> completeSum scope entries

end Grammar

/-- The tree of a statement and the steps to apply before it is evaluated. -/
structure Statement where
  root : Expr
  steps : List StagedStep
  deriving DecidableEq

namespace Statement

/-- The statement of a tree and the state that reading it leaves. -/
def ofResult? :
    Option Expr × Grammar.State (List StagedStep) → Option Statement
  | (some root, finish) => some ⟨root, finish.steps⟩
  | (none, _) => none

/-- A result is a statement when it has a tree, whatever text remains. -/
theorem ofResult?_eq_some_iff
    {result : Option Expr × Grammar.State (List StagedStep)}
    {statement : Statement} :
    ofResult? result = some statement ↔
      ∃ rest, result = (some statement.root, ⟨rest, statement.steps⟩) := by
  obtain ⟨root, steps⟩ := statement
  rcases result with ⟨_ | root', rest, steps'⟩ <;>
    simp [ofResult?]

/-- Read a statement, given the variables that are bound. -/
def parse? (text : String) (environment : Environment) : Option Statement :=
  let scope := Scope.staging environment
  ofResult? ((Grammar.statement scope (Grammar.calculations scope)).run
    ⟨text.toList, []⟩)

/-- A statement is the value and the record of a run from the start of its
text. -/
theorem parse?_eq_some_iff
    {text : String}
    {environment : Environment}
    {statement : Statement} :
    parse? text environment = some statement ↔
      ∃ rest, (Grammar.statement (.staging environment)
          (Grammar.calculations (.staging environment))).run
            ⟨text.toList, []⟩ =
        (some statement.root, ⟨rest, statement.steps⟩) :=
  ofResult?_eq_some_iff

/-- A statement is read with its scope's names when they have been sorted
before. -/
theorem parse?_of_namesByLength
    {environment : Environment}
    {names : List String}
    (sorted : environment.namesByLength = names)
    (text : String) :
    let scope := { Scope.staging environment with names }
    parse? text environment =
      ofResult? ((Grammar.statement scope (Grammar.calculations scope)).run
        ⟨text.toList, []⟩) := by
  subst sorted
  rfl

/-- The environment after the steps of a statement. -/
def commit (statement : Statement) (environment : Environment) : Environment :=
  environment.applySteps statement.steps

end Statement

end LineCalculator
