import LineCalculator.Proofs.Grammar.StagedAttempts
import LineCalculator.Proofs.Token.Spelling
import LineCalculator.Statement

/-!
# Shapes of trees

A statement is read as a calculation, or as an assignment of a calculation to an
identifier. A calculation reads identifiers, calls known functions and steps
bound names only. This holds for bound names of every kind, so it is shown from
the rules and not from derivations: whatever the text, a rule yields only trees
of this shape.
-/

namespace LineCalculator

namespace Expr

/-- A tree without assignments whose variables are identifiers, whose calls name
functions and whose steps are on given names. -/
inductive IsCalculation (names : List String) : Expr → Prop
  | literal (value : Float) : IsCalculation names (.literal value)
  | var {name}
      (isIdentifier : Token.IsIdentifier name.toList) :
      IsCalculation names (.var name)
  | postStep {name}
      (bound : name ∈ names)
      (step : Step) :
      IsCalculation names (.postStep name step)
  | binary (operator : Operator) {left right}
      (leftShape : IsCalculation names left)
      (rightShape : IsCalculation names right) :
      IsCalculation names (.binary operator left right)
  | call (function : MathFunction) {argument}
      (argumentShape : IsCalculation names argument) :
      IsCalculation names (.call function.name argument)

/-- A calculation, or an assignment of one to an identifier. -/
inductive IsStatement (names : List String) : Expr → Prop
  | calculation {value}
      (valueShape : value.IsCalculation names) :
      IsStatement names value
  | assignment {target value}
      (isIdentifier : Token.IsIdentifier target.toList)
      (valueShape : value.IsCalculation names) :
      IsStatement names (.assignment target value)

variable {names names' : List String} {tree : Expr}

/-- Names that are bound later do not change the shape of a tree. -/
theorem IsCalculation.mono
    (shape : tree.IsCalculation names)
    (subset : names ⊆ names') :
    tree.IsCalculation names' := by
  induction shape with
  | literal value => exact .literal value
  | var isIdentifier => exact .var isIdentifier
  | postStep bound step => exact .postStep (subset bound) step
  | binary operator _ _ leftHypothesis rightHypothesis =>
      exact .binary operator leftHypothesis rightHypothesis
  | call function _ argumentHypothesis => exact .call function argumentHypothesis

/-- A statement on some names is one on these and more. -/
theorem IsStatement.mono
    (shape : tree.IsStatement names)
    (subset : names ⊆ names') :
    tree.IsStatement names' := by
  cases shape with
  | calculation valueShape => exact .calculation (valueShape.mono subset)
  | assignment isIdentifier valueShape =>
      exact .assignment isIdentifier (valueShape.mono subset)

end Expr

namespace Grammar

/-- Every value of a rule, from whatever state, has a property. -/
def Rule.Yields (rule : Rule σ α) (property : α → Prop) : Prop :=
  ∀ value, rule.Gives value → property value

variable {property : α → Prop} {property' : β → Prop}

theorem yields_pure {value : α} (holds : property value) :
    (pure value : Rule σ α).Yields property := by
  rintro _ ⟨start, finish, outcome⟩
  simp only [Rule.run_pure, Prod.mk.injEq, Option.some.injEq] at outcome
  exact outcome.1 ▸ holds

theorem yields_failure : (failure : Rule σ α).Yields property := by
  rintro value ⟨start, finish, outcome⟩
  simp at outcome

/-- What a rule yields behind another one may use that the other one gave its
value. -/
theorem yields_bind
    {first : Rule σ α}
    {next : α → Rule σ β}
    (later : ∀ value, first.Gives value → (next value).Yields property') :
    (first >>= next).Yields property' := by
  rintro value ⟨start, finish, outcome⟩
  rw [Rule.run_bind] at outcome
  rcases firstOutcome : first.run start with ⟨_ | between, middle⟩
  · simp [firstOutcome] at outcome
  · rw [firstOutcome] at outcome
    exact later between ⟨start, middle, firstOutcome⟩ value
      ⟨middle, finish, outcome⟩

theorem Rule.Yields.orElse
    {first second : Rule σ α}
    (firstYields : first.Yields property)
    (secondYields : second.Yields property) :
    (first <|> second).Yields property := by
  rintro value ⟨start, finish, outcome⟩
  rw [Rule.run_orElse] at outcome
  rcases firstOutcome : first.run start with ⟨_ | found, middle⟩
  · rw [firstOutcome] at outcome
    exact secondYields value ⟨middle, finish, outcome⟩
  · rw [firstOutcome] at outcome
    exact firstYields value ⟨start, finish, firstOutcome.trans outcome⟩

theorem Rule.Yields.attempt
    {scope : Scope σ}
    {rule : Rule σ α}
    (yields : rule.Yields property) :
    (attempt scope rule).Yields property := by
  rintro value ⟨start, finish, outcome⟩
  rw [run_attempt] at outcome
  rcases ruleOutcome : rule.run start with ⟨_ | found, middle⟩
  · simp [ruleOutcome] at outcome
  · rw [ruleOutcome] at outcome
    exact yields value ⟨start, finish, ruleOutcome.trans outcome⟩

theorem yields_map
    {rule : Rule σ α}
    {change : α → β}
    (holds : ∀ value, rule.Gives value → property' (change value)) :
    (change <$> rule).Yields property' := by
  rintro value ⟨start, finish, outcome⟩
  rw [Rule.run_map] at outcome
  rcases ruleOutcome : rule.run start with ⟨_ | found, middle⟩
  · simp [ruleOutcome] at outcome
  · simp only [ruleOutcome, Option.map_some, Prod.mk.injEq,
      Option.some.injEq] at outcome
    exact outcome.1 ▸ holds found ⟨start, middle, ruleOutcome⟩

theorem yields_firstM
    {rule : β → Rule σ α}
    {values : List β}
    (yields : ∀ value, (rule value).Yields property) :
    (values.firstM rule).Yields property := by
  induction values with
  | nil => exact yields_failure
  | cons value values valuesHypothesis =>
      exact (yields value).orElse valuesHypothesis

/-- A name that is read is an identifier. -/
theorem isIdentifier_of_gives
    {name : String}
    (gives : (token Token.identifier : Rule σ String).Gives name) :
    Token.IsIdentifier name.toList := by
  obtain ⟨start, finish, outcome⟩ := gives
  rw [run_token] at outcome
  rcases read : Token.identifier start.rest with _ | ⟨found, rest⟩
  · simp [read] at outcome
  · simp only [read, Prod.mk.injEq, Option.some.injEq] at outcome
    exact outcome.1 ▸ (Token.identifier_eq_some_iff.mp read).1

/-- The shape of the values of an entry: a calculation, which for the rest of a
sum or product depends on what stands to the left. -/
def Entry.Shape (names : List String) : Entry → Expr → Prop
  | .sum, value => value.IsCalculation names
  | .factor, value => value.IsCalculation names
  | .moreTerms left, value =>
      left.IsCalculation names → value.IsCalculation names
  | .moreFactors left, value =>
      left.IsCalculation names → value.IsCalculation names

/-- A result whose value has the shape of its entry. -/
def Shaped (names : List String) : ResultProperty σ :=
  fun entry _ result => ∀ value ∈ result.1, entry.Shape names value

variable {scope : Scope σ} {entries : Entries σ}

/-- Shaped entries yield trees of their shape. -/
theorem Satisfy.yields
    {names : List String}
    (shaped : Satisfy entries (Shaped names))
    (entry : Entry) :
    (entries entry).Yields (entry.Shape names) := by
  rintro value ⟨start, finish, outcome⟩
  exact shaped entry start value (by simp [outcome])

theorem yields_stepBefore :
    (stepBefore scope).Yields (Expr.IsCalculation scope.names) := by
  refine (yields_bind ?_).attempt
  intro step _
  refine yields_bind ?_
  intro name _
  refine yields_bind ?_
  intro state _
  refine yields_bind ?_
  intro _ _
  exact yields_pure (.literal _)

theorem yields_stepAfter :
    (stepAfter scope).Yields (Expr.IsCalculation scope.names) := by
  refine (yields_bind ?_).attempt
  intro name gives
  refine yields_bind ?_
  intro step _
  exact yields_pure (.postStep (mem_names_of_gives_knownName gives) step)

section

variable (shaped : Satisfy entries (Shaped scope.names))
include shaped

theorem yields_group :
    (group scope entries).Yields (Expr.IsCalculation scope.names) := by
  refine (yields_bind ?_).attempt
  intro _ _
  refine yields_bind ?_
  intro inner gives
  refine yields_bind ?_
  intro _ _
  exact yields_pure (shaped.yields .sum inner gives)

theorem yields_call :
    (call scope entries).Yields (Expr.IsCalculation scope.names) := by
  refine (yields_bind ?_).attempt
  intro function _
  refine yields_bind ?_
  intro _ _
  refine yields_bind ?_
  intro argument gives
  refine yields_bind ?_
  intro _ _
  exact yields_pure (.call function (shaped.yields .sum argument gives))

theorem yields_operand :
    (operand scope entries).Yields (Expr.IsCalculation scope.names) := by
  refine (yields_group shaped).orElse (Rule.Yields.orElse ?_ ?_)
  · exact yields_map fun name gives => .var (isIdentifier_of_gives gives)
  · exact yields_map fun value _ => .literal value

theorem yields_power
    {base : Expr}
    (baseShape : base.IsCalculation scope.names) :
    (power scope entries base).Yields (Expr.IsCalculation scope.names) := by
  refine (yields_bind ?_).attempt
  intro _ _
  refine yields_bind ?_
  intro exponent gives
  exact yields_pure
    (.binary .exponentiation baseShape (shaped.yields .factor exponent gives))

/-- A factor is a calculation on the known names. -/
theorem yields_factor :
    (factor scope entries).Yields (Expr.IsCalculation scope.names) := by
  refine (yields_stepBefore.orElse
    (yields_stepAfter.orElse (yields_call shaped))).orElse (yields_bind ?_)
  intro base gives
  have baseShape := yields_operand shaped base gives
  exact (yields_power shaped baseShape).orElse (yields_pure baseShape)

end

section

variable
  {names : List String}
  {operand : Rule σ Expr}
  {again : Expr → Rule σ Expr}
  (operators : List Operator)
  (operandYields : operand.Yields (Expr.IsCalculation names))
  (againYields : ∀ left, left.IsCalculation names →
    (again left).Yields (Expr.IsCalculation names))
include operandYields againYields

theorem yields_more
    {left : Expr}
    (leftShape : left.IsCalculation names) :
    (more operators operand again left).Yields (Expr.IsCalculation names) := by
  refine yields_bind ?_
  intro found _
  cases found with
  | none => exact yields_pure leftShape
  | some operator =>
      refine yields_bind ?_
      intro right gives
      exact againYields _ (.binary operator leftShape (operandYields right gives))

/-- A chain of calculations is a calculation. -/
theorem yields_chain :
    (chain scope operators operand again).Yields (Expr.IsCalculation names) := by
  refine (yields_bind ?_).attempt
  intro left gives
  exact yields_more operators operandYields againYields (operandYields left gives)

end

/-- The rules of calculations pass on the shape of their values. -/
theorem shaped_rulesOver
    (shaped : Satisfy entries (Shaped scope.names)) :
    Satisfy (rulesOver scope (factor scope) entries) (Shaped scope.names) := by
  have factors := yields_factor shaped
  have moreFactors (left : Expr) (leftShape : left.IsCalculation scope.names) :
      (entries (.moreFactors left)).Yields (Expr.IsCalculation scope.names) :=
    fun value gives => shaped.yields (.moreFactors left) value gives leftShape
  have moreTerms (left : Expr) (leftShape : left.IsCalculation scope.names) :
      (entries (.moreTerms left)).Yields (Expr.IsCalculation scope.names) :=
    fun value gives => shaped.yields (.moreTerms left) value gives leftShape
  have products : (product scope (factor scope entries) entries).Yields
      (Expr.IsCalculation scope.names) :=
    yields_chain Operator.multiplicative factors moreFactors
  intro entry start value found
  have gives : (rulesOver scope (factor scope) entries entry).Gives value :=
    ⟨start, _, Prod.ext found rfl⟩
  cases entry with
  | sum => exact yields_chain Operator.additive products moreTerms value gives
  | factor => exact factors value gives
  | moreTerms left =>
      intro leftShape
      exact yields_more Operator.additive products moreTerms leftShape value gives
  | moreFactors left =>
      intro leftShape
      exact yields_more Operator.multiplicative factors moreFactors leftShape
        value gives

/-- The parts of a calculation yield trees of their shape. -/
theorem shaped_calculations :
    Satisfy (calculations scope) (Shaped scope.names) :=
  satisfy_close (by simp [Shaped]) fun _ => shaped_rulesOver

section

variable (shaped : Satisfy entries (Shaped scope.names))
include shaped

theorem yields_completeSum :
    (completeSum scope entries).Yields (Expr.IsCalculation scope.names) := by
  refine (yields_bind ?_).attempt
  intro value gives
  refine yields_bind ?_
  intro _ _
  exact yields_pure (shaped.yields .sum value gives)

theorem yields_assignment :
    (assignment scope entries).Yields fun tree =>
      (∃ target value, tree = .assignment target value) ∧
        tree.IsStatement scope.names := by
  refine (yields_bind ?_).attempt
  intro target gives
  have isIdentifier := isIdentifier_of_gives gives
  refine Rule.Yields.orElse (Rule.Yields.attempt (yields_bind ?_)) ?_
  · intro _ _
    refine yields_bind ?_
    intro value gives
    exact yields_pure ⟨⟨target, value, rfl⟩,
      .assignment isIdentifier (yields_completeSum shaped value gives)⟩
  · unfold compoundAssignment
    split
    · apply yields_firstM
      intro operator
      refine (yields_bind ?_).attempt
      intro _ _
      refine yields_bind ?_
      intro value gives
      exact yields_pure ⟨⟨target, _, rfl⟩, .assignment isIdentifier
        (.binary operator (.var isIdentifier)
          (yields_completeSum shaped value gives))⟩
    · exact yields_failure

/-- What is read as a statement is a statement on the known names. -/
theorem yields_statement :
    (statement scope entries).Yields (Expr.IsStatement scope.names) := by
  refine Rule.Yields.orElse ?_ ?_
  · exact fun value gives => (yields_assignment shaped value gives).2
  · intro value gives
    exact .calculation (yields_completeSum shaped value gives)

end

end Grammar

namespace Statement

variable
  {environment : Environment}
  {text : String}
  {statement : Statement}

/-- The tree of a statement assigns at its root at most, to an identifier. -/
theorem isStatement_root
    (parsed : parse? text environment = some statement) :
    statement.root.IsStatement environment.names := by
  obtain ⟨rest, outcome⟩ := parse?_eq_some_iff.mp parsed
  have shape := Grammar.yields_statement Grammar.shaped_calculations
    statement.root ⟨_, _, outcome⟩
  apply shape.mono
  intro name member
  exact Environment.mem_namesByLength.mp member

/-- The steps of a statement are on bound names. -/
theorem mem_names_of_mem_steps
    (parsed : parse? text environment = some statement)
    {staged : StagedStep}
    (member : staged ∈ statement.steps) :
    staged.name ∈ environment.names := by
  have reversible := Grammar.reversible_staging environment
  have atomic := Grammar.isAtomic_statement reversible
    (Grammar.proper_calculations reversible) ⟨text.toList, []⟩
  obtain ⟨rest, outcome⟩ := parse?_eq_some_iff.mp parsed
  rw [outcome] at atomic
  obtain ⟨added, split, bound⟩ := atomic.1.record
  rw [List.nil_append] at split
  exact bound staged (split ▸ member)

end Statement

end LineCalculator
