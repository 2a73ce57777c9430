import LineCalculator.Proofs.Grammar.Embedding
import LineCalculator.Proofs.Session.Evaluation

/-!
# Calculations inside assignments and groups

What a calculation does by itself it does as the value of an assignment and
between parentheses as well. An assignment of it gives its value and leaves what
it leaves, with the value recorded under the target.
-/

namespace LineCalculator

namespace Session

variable
  {session : Session}
  {text assigned name : String}
  {root : Expr}
  {steps : List StagedStep}

/-- An assignment of a tree is evaluated as the tree is, and its value is
recorded. -/
theorem evaluate_of_assignment
    (parsed : Statement.parse? text session.environment = some ⟨root, steps⟩)
    (parsedAssigned : Statement.parse? assigned session.environment =
      some ⟨.assignment name root, steps⟩) :
    ∃ value after, session.evaluate text = (.ok value, after) ∧
      session.evaluate assigned =
        (.ok value,
          { after with environment := after.environment.record name value }) :=
  ⟨_, _, evaluate_of_some parsed, evaluate_of_some parsedAssigned⟩

/-- Where a text is read as a calculation, it is read with the same tree and the
same steps as the value of an assignment to any identifier, as the right operand
that an operator assigns with to a bound one, and between parentheses. With a
target that is not bound an operator assigns nothing. Blanks on both sides of
the symbol of an assignment make no difference. -/
theorem calculations_are_embedded
    (session : Session)
    (text : String)
    (root : Expr)
    (steps : List StagedStep)
    (identifiers : ∀ name ∈ session.environment.names,
      Token.IsIdentifier name.toList)
    (parsed : Statement.parse? text session.environment = some ⟨root, steps⟩)
    (calculation : ∀ target value, root ≠ .assignment target value) :
    (∀ name gap gap' : String, Token.IsIdentifier name.toList →
      (∀ character ∈ gap.toList, isBlank character = true) →
      (∀ character ∈ gap'.toList, isBlank character = true) →
      (Statement.parse? (name ++ gap ++ "=" ++ (gap' ++ text))
          session.environment = some ⟨.assignment name root, steps⟩ ∧
        ∃ value after, session.evaluate text = (.ok value, after) ∧
          session.evaluate (name ++ gap ++ "=" ++ (gap' ++ text)) =
            (.ok value, { after with
              environment := after.environment.record name value })) ∧
      ∀ operator : Operator,
        Statement.parse? (name ++ " = " ++ name ++ " " ++ operator.symbol ++
            " (" ++ text ++ ")") session.environment =
          some ⟨.assignment name (.binary operator (.var name) root), steps⟩ ∧
        Statement.parse? (name ++ gap ++ operator.compoundSymbol ++
            (gap' ++ text)) session.environment =
          if name ∈ session.environment.names then
            some ⟨.assignment name (.binary operator (.var name) root), steps⟩
          else none) ∧
    Statement.parse? ("(" ++ text ++ ")") session.environment =
      some ⟨root, steps⟩ := by
  refine ⟨?_, Statement.parse?_group identifiers parsed calculation⟩
  intro name gap gap' isIdentifier blank blank'
  have parsedBehind := (Statement.parse?_behind_blanks identifiers blank').trans
    parsed
  have assigned := Statement.parse?_assignment parsedBehind calculation
    isIdentifier blank
  refine ⟨⟨assigned, evaluate_of_assignment parsed assigned⟩, ?_⟩
  intro operator
  refine ⟨Statement.parse?_assignment_of_operation identifiers parsed
    calculation isIdentifier operator, ?_⟩
  split
  · next bound =>
      exact Statement.parse?_compoundAssignment parsedBehind calculation
        isIdentifier blank bound operator
  · next unbound =>
      exact Statement.parse?_compoundAssignment_of_unbound identifiers
        isIdentifier blank unbound operator

/-- A step before a name is staged once wherever the calculation stands, and the
parenthesis behind `sin` does not make a call of the variable. -/
theorem calculations_are_embedded_with_step :
    let session : Session := ⟨⟨[⟨"a", 1.0⟩, ⟨"sin", 0.5⟩]⟩, []⟩
    let text := "++a * 2 - sin"
    let root : Expr := .binary .subtraction
      (.binary .multiplication (.literal 2.0) (.literal 2.0)) (.var "sin")
    let steps : List StagedStep := [⟨"a", .increment⟩]
    (∀ name ∈ session.environment.names, Token.IsIdentifier name.toList) ∧
      Statement.parse? text session.environment = some ⟨root, steps⟩ ∧
      (∀ target value, root ≠ .assignment target value) ∧
      Statement.parse? "sin-=++a * 2 - sin" session.environment = some
        ⟨.assignment "sin" (.binary .subtraction (.var "sin") root), steps⟩ ∧
      Statement.parse? "b -= ++a * 2 - sin" session.environment = none ∧
      Statement.parse? "(++a * 2 - sin)" session.environment =
        some ⟨root, steps⟩ := by
  intro session text root steps
  have identifiers : ∀ name ∈ session.environment.names,
      Token.IsIdentifier name.toList := by
    decide
  have sorted : session.environment.namesByLength = ["sin", "a"] := by
    change ["a", "sin"].mergeSort _ = _
    simp +decide [List.mergeSort]
  have parsed : Statement.parse? text session.environment =
      some ⟨root, steps⟩ := by
    rw [Statement.parse?_of_namesByLength sorted]
    decide +kernel
  have calculation : ∀ target value, root ≠ .assignment target value := by
    simp [root]
  have embedded := calculations_are_embedded session text root steps identifiers
    parsed calculation
  have blank (gap : String) (isGap : gap = "" ∨ gap = " ") :
      ∀ character ∈ gap.toList, isBlank character = true := by
    rcases isGap with rfl | rfl <;> simp [isBlank, blankRanges]
  have bound := (embedded.1 "sin" "" "" (by decide) (blank "" (.inl rfl))
    (blank "" (.inl rfl))).2 .subtraction
  have unbound := (embedded.1 "b" " " " " (by decide) (blank " " (.inr rfl))
    (blank " " (.inr rfl))).2 .subtraction
  exact ⟨identifiers, parsed, calculation, bound.2, unbound.2, embedded.2⟩

end Session

end LineCalculator
