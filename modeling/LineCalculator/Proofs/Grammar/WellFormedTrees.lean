import LineCalculator.Proofs.Expr.PostSteps
import LineCalculator.Proofs.Expr.Writing
import LineCalculator.Proofs.Grammar.Counterparts
import LineCalculator.Proofs.Grammar.Success
import LineCalculator.Proofs.Number.NumeralSign

/-!
# Well-formed trees

What evaluation relies on holds of every tree that is read, whatever the text
and the names are. Calls name functions, so evaluation never falls back to the
value of a name of no function. An assignment stands at the root only, and
behind the symbol of an operator its target is bound. Steps are on bound names,
and literals that do not come from a step are numbers without a sign.
-/

namespace LineCalculator

namespace Expr

variable
  {names : List String}
  {text : List Char}
  {tree : Expr}
  {environment : Environment}

/-- Evaluation that has no value where a call names no function. -/
def evalKnown? : Expr → Environment → Option (Float × Environment)
  | .literal value, environment => some (value, environment)
  | .var name, environment => some (environment.lookup name, environment)
  | .postStep name step, environment =>
      some (environment.lookup name, environment.applyStep name step)
  | .binary operator left right, environment => do
      let (leftValue, environment) ← left.evalKnown? environment
      let (rightValue, environment) ← right.evalKnown? environment
      some (operator.apply leftValue rightValue, environment)
  | .assignment target value, environment => do
      let (value, environment) ← value.evalKnown? environment
      some (value, environment.record target value)
  | .call function argument, environment => do
      let (value, environment) ← argument.evalKnown? environment
      let function ← MathFunction.ofName? function
      some (function.apply value, environment)

/-- Where all calls name functions there is a value, and it is that of the
evaluation that never fails. -/
theorem IsCalculation.evalKnown?_eq
    (shape : tree.IsCalculation names)
    (environment : Environment) :
    tree.evalKnown? environment = some (tree.eval environment) := by
  induction shape generalizing environment with
  | literal _ | var _ | postStep _ _ => rfl
  | binary operator _ _ leftHypothesis rightHypothesis =>
      simp [evalKnown?, leftHypothesis, rightHypothesis]
  | call function _ argumentHypothesis =>
      simp [evalKnown?, argumentHypothesis]

/-- The tree of a statement, by the rule that builds it. Only the root may be an
assignment. With the symbol of an operator behind the name that starts the text,
the name is bound. -/
inductive IsRoot (names : List String) (text : List Char) : Expr → Prop
  | calculation {value}
      (valueShape : value.IsCalculation names) :
      IsRoot names text value
  | plainAssignment {target afterName rest value}
      (isIdentifier : Token.IsIdentifier target.toList)
      (nameRead : Token.identifier text = some (target, afterName))
      (signRead : Token.character '=' afterName = some ((), rest))
      (valueShape : value.IsCalculation names) :
      IsRoot names text (.assignment target value)
  | operatorAssignment {target operator afterName rest value}
      (isIdentifier : Token.IsIdentifier target.toList)
      (nameRead : Token.identifier text = some (target, afterName))
      (symbolRead : Token.literal operator.compoundSymbol afterName =
        some ((), rest))
      (bound : target ∈ names)
      (valueShape : value.IsCalculation names) :
      IsRoot names text
        (.assignment target (.binary operator (.var target) value))

/-- The evaluation of a root never meets an unknown function. -/
theorem IsRoot.evalKnown?_eq
    (isRoot : tree.IsRoot names text)
    (environment : Environment) :
    tree.evalKnown? environment = some (tree.eval environment) := by
  cases isRoot with
  | calculation valueShape => exact valueShape.evalKnown?_eq environment
  | plainAssignment _ _ _ valueShape =>
      simp [evalKnown?, valueShape.evalKnown?_eq]
  | operatorAssignment _ _ _ _ valueShape =>
      simp [evalKnown?, valueShape.evalKnown?_eq]

/-- Without staged steps, the literals of a counterpart are denoted by numerals
of the text. -/
theorem Counterpart.isNumeralIn
    {left right : Environment}
    {tree' : Expr}
    (counterpart : tree.Counterpart text left right [] tree') :
    ∀ value ∈ tree.literals, Token.IsNumeralIn text value := by
  induction counterpart with
  | number inText => exact List.forall_mem_singleton.mpr inText
  | stepped isFront => simp at isFront
  | var _ | postStep _ _ => exact nofun
  | binary operator _ _ firstsHypothesis secondsHypothesis =>
      exact List.forall_mem_append.mpr ⟨firstsHypothesis, secondsHypothesis⟩
  | assignment target _ valuesHypothesis => exact valuesHypothesis
  | call function _ argumentsHypothesis => exact argumentsHypothesis

end Expr

namespace Grammar

variable
  {environment : Environment}
  {start finish : State (List StagedStep)}
  {value : Expr}

/-- A sum up to the end of the text is a calculation on the bound names. -/
theorem isCalculation_of_completeSum
    (outcome : (completeSum (.staging environment)
      (calculations (.staging environment))).run start = (some value, finish)) :
    value.IsCalculation environment.names := by
  have shape := yields_completeSum shaped_calculations value
    ⟨start, finish, outcome⟩
  exact shape.mono fun name member => Environment.mem_namesByLength.mp member

/-- The name of an assignment is an identifier, and what follows it is a symbol
and a calculation. -/
theorem isRoot_of_assignment
    (outcome : (assignment (.staging environment)
      (calculations (.staging environment))).run start = (some value, finish)) :
    value.IsRoot environment.names start.rest := by
  have reversible := reversible_staging environment
  obtain ⟨target, afterTarget, targetRead, goesOn⟩ :=
    exists_parts_of_assignment reversible (proper_calculations reversible)
      outcome
  obtain ⟨nameRead, -⟩ := token_eq_some_iff.mp targetRead
  have isIdentifier := (Token.identifier_eq_some_iff.mp nameRead).1
  rcases goesOn with plain | ⟨bound, operator, found⟩
  · obtain ⟨afterSign, assigned, signRead, sumRead, rfl⟩ :=
      assigned_eq_some_iff.mp plain
    exact .plainAssignment isIdentifier nameRead
      (token_eq_some_iff.mp signRead).1 (isCalculation_of_completeSum sumRead)
  · obtain ⟨afterSymbol, assigned, symbolRead, sumRead, rfl⟩ :=
      assigned_eq_some_iff.mp found
    exact .operatorAssignment isIdentifier nameRead
      (token_eq_some_iff.mp symbolRead).1
      (Environment.mem_namesByLength.mp bound)
      (isCalculation_of_completeSum sumRead)

end Grammar

namespace Statement

variable
  {environment : Environment}
  {text : String}
  {statement : Statement}

/-- The tree of a text is a root for that text. -/
theorem isRoot_root
    (parsed : parse? text environment = some statement) :
    statement.root.IsRoot environment.names text.toList := by
  have reversible := Grammar.reversible_staging environment
  have atomic := Grammar.isAtomic_assignment reversible
    (Grammar.proper_calculations reversible)
  obtain ⟨rest, outcome⟩ := parse?_eq_some_iff.mp parsed
  rcases atomic.orElse_eq_some outcome with assignment | calculation
  · exact Grammar.isRoot_of_assignment assignment
  · exact .calculation (Grammar.isCalculation_of_completeSum calculation)

/-- Without staged steps all literals of a tree are numerals of the text. -/
theorem isNumeralIn_of_parse?
    (parsed : parse? text environment = some statement)
    (noSteps : statement.steps = []) :
    ∀ value ∈ statement.root.literals,
      Token.IsNumeralIn text.toList value := by
  have sameNames (name : String) :
      name ∈ environment.names ↔ name ∈ environment.names :=
    Iff.rfl
  have counterparts := parse?_counterparts text sameNames
  rw [parsed] at counterparts
  cases counterparts with
  | some both =>
      rw [noSteps] at both
      exact both.2.isNumeralIn

/-- Every tree that is read is well formed. An assignment is at its root at most
and has an identifier as its target, which is bound when the symbol of an
operator is part of the assignment; below the root variables are identifiers,
calls name functions and steps are on bound names. So evaluation, after any
number of evaluations in any environment, never meets a call of an unknown
function. The staged steps are on bound names. Without staged steps every
literal is denoted by a numeral of the text, is a number and has a clear sign
bit. -/
theorem trees_are_well_formed
    (text : String)
    (environment : Environment)
    (statement : Statement)
    (parsed : parse? text environment = some statement) :
    statement.root.IsRoot environment.names text.toList ∧
    (∀ other count,
      let before := statement.root.evalTimes count other
      statement.root.evalKnown? before = some (statement.root.eval before)) ∧
    (∀ staged ∈ statement.steps, staged.name ∈ environment.names) ∧
    (statement.steps = [] → ∀ value ∈ statement.root.literals,
      Token.IsNumeralIn text.toList value ∧ value.isNaN = false ∧
        Number.signBit value = false) := by
  have isRoot := isRoot_root parsed
  refine ⟨isRoot, fun other count => isRoot.evalKnown?_eq _, ?_, ?_⟩
  · exact fun staged member => mem_names_of_mem_steps parsed member
  · intro noSteps value member
    have inText := isNumeralIn_of_parse? parsed noSteps value member
    refine ⟨inText, ?_⟩
    obtain ⟨numeral, -, -, rfl⟩ := inText
    exact numeral.toFloat_unsigned

/-- The names `2` and `sin(` are no identifiers, but they can be bound, and `x`
can be assigned to with an operator because it is bound. -/
theorem trees_are_well_formed_with_unusual_names :
    let environment : Environment :=
      ⟨[⟨"x", 1.0⟩, ⟨"2", 4.0⟩, ⟨"sin(", 5.0⟩]⟩
    let text := "x -= sin(0.5) + 2++ * y"
    let root : Expr := .assignment "x" (.binary .subtraction (.var "x")
      (.binary .addition
        (.call "sin" (.literal 0.5))
        (.binary .multiplication (.postStep "2" .increment) (.var "y"))))
    parse? text environment = some ⟨root, []⟩ ∧
      root.IsRoot environment.names text.toList ∧
      ∀ value ∈ root.literals, value.isNaN = false ∧
        Number.signBit value = false := by
  intro environment text root
  have sorted : environment.namesByLength = ["sin(", "x", "2"] := by
    change ["x", "2", "sin("].mergeSort _ = _
    simp +decide [List.mergeSort]
  have parsed : parse? text environment = some ⟨root, []⟩ := by
    rw [parse?_of_namesByLength sorted]
    decide +kernel
  have wellFormed := trees_are_well_formed text environment _ parsed
  refine ⟨parsed, wellFormed.1, fun value member => ?_⟩
  exact (wellFormed.2.2.2 rfl value member).2

end Statement

end LineCalculator
