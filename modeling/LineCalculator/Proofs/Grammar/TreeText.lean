import LineCalculator.Expr
import LineCalculator.Proofs.Expr.Writing
import LineCalculator.Proofs.Grammar.DeadEnd
import LineCalculator.Proofs.Grammar.TreeShape

/-!
# Reading the texts of trees

In the text of a tree every operation stands between parentheses, but steps and
calls do not. Nothing follows a step or a call within a factor, so a caret
behind one is a dead end: a tree in which a step or a call is raised to a power
has a text that is no statement. Every other tree is read from its text.
-/

namespace LineCalculator

/-- Whether a step or a call is raised to a power somewhere in a tree. -/
def Expr.raisesFunction : Expr → Bool
  | .literal _ | .var _ | .postStep _ _ => false
  | .binary operator left right =>
      (operator = .exponentiation && left.isFunction) ||
        left.raisesFunction || right.raisesFunction
  | .assignment _ value => value.raisesFunction
  | .call _ argument => argument.raisesFunction

/-- An operation raises no function when it does not itself and neither do its
sides. -/
theorem Expr.raisesFunction_binary_eq_false
    {operator : Operator}
    {left right : Expr} :
    (Expr.binary operator left right).raisesFunction = false ↔
      (operator = .exponentiation → left.isFunction = false) ∧
        left.raisesFunction = false ∧ right.raisesFunction = false := by
  simp [raisesFunction, imp_iff_not_or, and_assoc]

namespace Grammar

open Token (Written first?)

variable
  {names : List String}
  {tree : Expr}

/-- The text of an operation is a group of two texts with a spaced operator
between them. -/
theorem toList_text_binary (operator : Operator) (left right : Expr) :
    (Expr.binary operator left right).text.toList =
      ['('] ++ (left.text.toList ++
        (operator.between ++ (right.text.toList ++ [')']))) := by
  simp [operator.between_eq]

/-- The text of a call is its name and a group. -/
theorem toList_text_call (function : String) (argument : Expr) :
    (Expr.call function argument).text.toList =
      function.toList ++ (['('] ++ (argument.text.toList ++ [')'])) := by
  simp

/-- The text of an assignment is its target, an equals sign and the text of the
value. -/
theorem toList_text_assignment (target : String) (value : Expr) :
    (Expr.assignment target value).text.toList =
      target.toList ++ ([' ', '='] ++ (' ' :: value.text.toList)) := by
  simp

/-- No calculation has an equals sign in its text. -/
theorem not_mem_equals_text
    (identifiers : ∀ name ∈ names, Token.IsIdentifier name.toList)
    (shape : tree.IsCalculation names)
    (readsBack : tree.LiteralsReadBack) :
    '=' ∉ tree.text.toList := by
  induction shape with
  | literal value =>
      obtain ⟨numeral, wellFormed, same, -⟩ :=
        Expr.literalsReadBack_literal.mp readsBack
      simpa [← same] using wellFormed.not_mem_equals
  | var isIdentifier => exact isIdentifier.not_mem_equals
  | postStep bound step =>
      have noName := (identifiers _ bound).not_mem_equals
      cases step <;> simpa [Step.symbol] using noName
  | binary operator _ _ leftHypothesis rightHypothesis =>
      obtain ⟨leftReadsBack, rightReadsBack⟩ :=
        Expr.literalsReadBack_binary.mp readsBack
      have noLeft := leftHypothesis leftReadsBack
      have noRight := rightHypothesis rightReadsBack
      cases operator <;> simpa [Operator.symbol] using ⟨noLeft, noRight⟩
  | call function _ argumentHypothesis =>
      have noName := function.isIdentifier_name.not_mem_equals
      simpa using ⟨noName, argumentHypothesis readsBack⟩

/-! ## Texts that are read -/

/-- The category of the text of a tree. -/
def ofText (tree : Expr) : Category :=
  if tree.isFunction then .function else .operand

namespace Spaced

variable {text : List Char}

/-- The text of a tree is a factor, whatever the tree. -/
theorem factor_of_text (spaced : Spaced names (ofText tree) text tree) :
    Spaced names .factor text tree := by
  rcases isFunction : tree.isFunction with _ | _ <;>
    simp only [ofText, isFunction] at spaced
  · exact .operand spaced
  · exact .function spaced

/-- The text of a tree stands to the left of every operator, unless a step or a
call would be raised to a power. -/
theorem left_of_text
    {operator : Operator}
    (spaced : Spaced names (ofText tree) text tree)
    (notRaised : operator = .exponentiation → tree.isFunction = false) :
    Spaced names (leftOf operator) text tree := by
  rcases isFunction : tree.isFunction with _ | _
  · simp only [ofText, isFunction] at spaced
    exact left_of_operand spaced
  · have factor := spaced.factor_of_text
    cases operator with
    | addition | subtraction => exact .oneTerm (.oneFactor factor)
    | multiplication | division | modulus => exact .oneFactor factor
    | exponentiation => simp [notRaised rfl] at isFunction

end Spaced

/-- The text of a calculation that raises no function is spaced. -/
theorem spaced_text
    (shape : tree.IsCalculation names)
    (readsBack : tree.LiteralsReadBack)
    (fits : tree.raisesFunction = false) :
    Spaced names (ofText tree) tree.text.toList tree := by
  induction shape with
  | literal value =>
      obtain ⟨numeral, wellFormed, same, rfl⟩ :=
        Expr.literalsReadBack_literal.mp readsBack
      simpa [ofText, Expr.isFunction, ← same] using Spaced.number wellFormed
  | var isIdentifier => exact .var isIdentifier
  | postStep bound step =>
      simpa [ofText, Expr.isFunction] using Spaced.stepAfter bound step
  | binary operator _ _ leftHypothesis rightHypothesis =>
      obtain ⟨leftReadsBack, rightReadsBack⟩ :=
        Expr.literalsReadBack_binary.mp readsBack
      obtain ⟨notRaised, leftFits, rightFits⟩ :=
        Expr.raisesFunction_binary_eq_false.mp fits
      have leftSpaced := leftHypothesis leftReadsBack leftFits
      have rightSpaced := rightHypothesis rightReadsBack rightFits
      have spaced := (leftSpaced.left_of_text notRaised).binary
        rightSpaced.factor_of_text.right_of_factor
      rw [toList_text_binary]
      simpa [ofText, Expr.isFunction] using Spaced.group spaced.sum_of_operator
  | call function _ argumentHypothesis =>
      have argumentSpaced := argumentHypothesis readsBack fits
      simpa [ofText, Expr.isFunction] using Spaced.call function
        (.oneTerm (.oneFactor argumentSpaced.factor_of_text))

/-! ## Texts that are not read -/

/-- The rule for factors strands on the text of a tree, with blanks in front and
whatever behind it. -/
def StrandsOn (environment : Environment) (tree : Expr) : Prop :=
  ∀ word rest, Written tree.text.toList word →
    (stagedFactor environment).Strands (word ++ rest)

section

variable
  {environment : Environment}
  {steps : List StagedStep}
  {left right value : Expr}
  {target : String}
  (identifiers : ∀ name ∈ environment.names, Token.IsIdentifier name.toList)
include identifiers

/-- Between the parentheses of an operation the rule for sums strands: to the
left of the operator, on a caret behind a function, or to its right. -/
theorem sum_strands_of_operation
    (operator : Operator)
    (leftShape : left.IsCalculation environment.names)
    (leftReadsBack : left.LiteralsReadBack)
    (raises : (Expr.binary operator left right).raisesFunction = true)
    (leftStrands : left.raisesFunction = true → StrandsOn environment left)
    (rightStrands : right.raisesFunction = true → StrandsOn environment right)
    (rest : List Char) :
    (stagedEntries environment .sum).Strands (left.text.toList ++
      (operator.between ++ (right.text.toList ++ rest))) := by
  rcases leftRaises : left.raisesFunction with _ | _
  · have leftSpaced := spaced_text leftShape leftReadsBack leftRaises
    by_cases raised : operator = .exponentiation ∧ left.isFunction = true
    · obtain ⟨rfl, isFunction⟩ := raised
      simp only [ofText, isFunction] at leftSpaced
      have caretIsDead : DeadEnd (Operator.exponentiation.between ++
          (right.text.toList ++ rest)) :=
        ⟨'^', first?_between _ _, by decide, by decide⟩
      exact sum_strands
        (factor_strands_of_function (leftSpaced.reads identifiers) caretIsDead)
    · have notRaised : operator = .exponentiation → left.isFunction = false :=
        fun isPower => by simpa [isPower] using raised
      have rightRaises : right.raisesFunction = true := by
        by_contra notRaising
        have fits := Expr.raisesFunction_binary_eq_false.mpr
          ⟨notRaised, leftRaises, by simpa using notRaising⟩
        simp [fits] at raises
      have rightWritten := Token.written_behind_space right.text.toList
      exact sum_strands_of_right identifiers operator
        (leftSpaced.left_of_text notRaised)
        (rightStrands rightRaises _ rest rightWritten)
  · exact sum_strands (leftStrands leftRaises _ _ (Token.written_self _))

/-- The rule for factors strands on the text of a tree in which a function is
raised to a power. -/
theorem strandsOn_of_raisesFunction
    (shape : tree.IsCalculation environment.names)
    (readsBack : tree.LiteralsReadBack)
    (raises : tree.raisesFunction = true) :
    StrandsOn environment tree := by
  induction shape with
  | literal value => simp [Expr.raisesFunction] at raises
  | var isIdentifier => simp [Expr.raisesFunction] at raises
  | postStep bound step => simp [Expr.raisesFunction] at raises
  | binary operator leftShape rightShape leftHypothesis rightHypothesis =>
      intro word rest written
      obtain ⟨leftReadsBack, rightReadsBack⟩ :=
        Expr.literalsReadBack_binary.mp readsBack
      rw [toList_text_binary] at written
      obtain ⟨openWord, openWritten, rfl⟩ := written.exists_front
      have sumStrands := sum_strands_of_operation identifiers operator leftShape
        leftReadsBack raises (leftHypothesis leftReadsBack)
        (rightHypothesis rightReadsBack) ([')'] ++ rest)
      simp only [List.append_assoc]
      exact strands_of_misses fun _ =>
        factor_misses_of_group identifiers openWritten sumStrands
  | call function argumentShape argumentHypothesis =>
      intro word rest written
      rw [toList_text_call] at written
      obtain ⟨nameWord, nameWritten, rfl⟩ := written.exists_front
      have argumentStrands := sum_strands (argumentHypothesis readsBack raises
        _ ([')'] ++ rest) (Token.written_self _))
      simp only [List.append_assoc]
      refine factor_strands_of_name identifiers function.isIdentifier_name
        nameWritten rfl (.inl rfl) ?_
      exact fun _ => call_misses_of_argument nameWritten
        (Token.written_self ['(']) argumentStrands

/-- The text of a calculation that raises a function is no statement. -/
theorem statement_misses_of_calculation
    (shape : tree.IsCalculation environment.names)
    (readsBack : tree.LiteralsReadBack)
    (raises : tree.raisesFunction = true) :
    (statement (.staging environment) (stagedEntries environment)).Misses
      ⟨tree.text.toList, steps⟩ := by
  have reversible := reversible_staging environment
  have proper := proper_calculations reversible
  have strands := strandsOn_of_raisesFunction identifiers shape readsBack raises
    _ [] (Token.written_self _)
  rw [List.append_nil] at strands
  have noSign := not_mem_equals_text identifiers shape readsBack
  exact (isAtomic_assignment reversible proper).orElse_misses
    (assignment_misses_of_not_mem proper noSign)
    (completeSum_misses (sum_strands strands))

/-- The text of an assignment whose value raises a function is no statement. -/
theorem statement_misses_of_assignment
    (isIdentifier : Token.IsIdentifier target.toList)
    (shape : value.IsCalculation environment.names)
    (readsBack : value.LiteralsReadBack)
    (raises : value.raisesFunction = true) :
    (statement (.staging environment) (stagedEntries environment)).Misses
      ⟨(Expr.assignment target value).text.toList, steps⟩ := by
  have reversible := reversible_staging environment
  have proper := proper_calculations reversible
  have nameWritten := Token.written_self target.toList
  have valueWritten := Token.written_behind_space value.text.toList
  have isFirst := first?_equals (' ' :: value.text.toList)
  have notOpen :
      first? ([' ', '='] ++ (' ' :: value.text.toList)) ≠ some '(' := by
    rw [isFirst]
    decide
  have valueStrands := strandsOn_of_raisesFunction identifiers shape readsBack
    raises _ [] valueWritten
  rw [List.append_nil] at valueStrands
  have wholeStrands := factor_strands_of_name identifiers isIdentifier
    nameWritten isFirst (.inr rfl) fun _ =>
      call_misses_of_name isIdentifier nameWritten (stops_equals _) notOpen
  rw [toList_text_assignment]
  exact (isAtomic_assignment reversible proper).orElse_misses
    (assignment_misses_of_value proper isIdentifier fun _ =>
      completeSum_misses (sum_strands valueStrands))
    (completeSum_misses (sum_strands wholeStrands))

end

end Grammar

namespace Statement

/-- The text of a tree that can be a statement without steps before names is
read as that tree, unless a step or a call is raised to a power somewhere in the
tree; then it is no statement. -/
theorem parse?_text
    (tree : Expr)
    (environment : Environment)
    (identifiers : ∀ name ∈ environment.names, Token.IsIdentifier name.toList)
    (shape : tree.IsStatement environment.names)
    (readsBack : tree.LiteralsReadBack) :
    parse? tree.text environment =
      if tree.raisesFunction then none else some ⟨tree, []⟩ := by
  split
  · next raises =>
      apply parse?_of_misses
      cases shape with
      | calculation shape =>
          exact Grammar.statement_misses_of_calculation identifiers shape
            readsBack raises
      | assignment isIdentifier shape =>
          exact Grammar.statement_misses_of_assignment identifiers isIdentifier
            shape readsBack raises
  · next fits =>
      replace fits : tree.raisesFunction = false := by simpa using fits
      cases shape with
      | calculation shape =>
          have spaced := Grammar.spaced_text shape readsBack fits
          exact parse?_of_spaced identifiers
            (.oneTerm (.oneFactor spaced.factor_of_text))
      | assignment isIdentifier shape =>
          have spaced := Grammar.spaced_text shape readsBack fits
          exact parse?_of_spaced_assignment identifiers
            (.oneTerm (.oneFactor spaced.factor_of_text)) isIdentifier

/-- The text with the sum raised to the step is read. The one with the step
raised to the sum is not: behind the step the caret is a dead end, and the call
around it makes no difference. -/
theorem parse?_text_of_step_and_power :
    let environment : Environment := ⟨[⟨"a", 1.0⟩, ⟨"ab", 2.0⟩]⟩
    let sum : Expr := .binary .addition (.var "sin") (.literal 1.5)
    let step : Expr := .postStep "ab" .increment
    let exponent : Expr := .assignment "x" (.binary .exponentiation sum step)
    let base : Expr :=
      .assignment "x" (.call "ceil" (.binary .exponentiation step sum))
    (∀ name ∈ environment.names, Token.IsIdentifier name.toList) ∧
      (exponent.IsStatement environment.names ∧ exponent.LiteralsReadBack ∧
        exponent.text = "x = ((sin + 1.5) ^ ab++)" ∧
        parse? exponent.text environment = some ⟨exponent, []⟩) ∧
      (base.IsStatement environment.names ∧ base.LiteralsReadBack ∧
        base.text = "x = ceil((ab++ ^ (sin + 1.5)))" ∧
        parse? base.text environment = none) := by
  intro environment sum step exponent base
  have identifiers :
      ∀ name ∈ environment.names, Token.IsIdentifier name.toList := by
    decide
  have sumShape : sum.IsCalculation environment.names :=
    .binary _ (.var (by decide)) (.literal _)
  have stepShape : step.IsCalculation environment.names :=
    .postStep (by decide) _
  have exponentShape : exponent.IsStatement environment.names :=
    .assignment (by decide) (.binary _ sumShape stepShape)
  have baseShape : base.IsStatement environment.names :=
    .assignment (by decide) (.call .ceil (.binary _ stepShape sumShape))
  have exponentReadsBack : exponent.LiteralsReadBack := by
    decide +kernel
  have baseReadsBack : base.LiteralsReadBack := by
    decide +kernel
  have exponentRead :=
    parse?_text exponent environment identifiers exponentShape exponentReadsBack
  have baseRead :=
    parse?_text base environment identifiers baseShape baseReadsBack
  exact ⟨identifiers,
    ⟨exponentShape, exponentReadsBack, by decide +kernel, exponentRead⟩,
    ⟨baseShape, baseReadsBack, by decide +kernel, baseRead⟩⟩

end Statement

end LineCalculator
