import LineCalculator.Proofs.Grammar.Atomicity

/-!
# The rules of statements are atomic

Every rule of calculations and statements is atomic given that the entries for
sums and factors are; the rest of a sum or product only has to keep what is in
the record. By induction over the entries, this holds of the tied rules.
-/

namespace LineCalculator

namespace Grammar

variable {scope : Scope σ} {Extends : σ → σ → Prop} {entries : Entries σ}

/-- What the rules need of the results of their entries: a sum or factor is
atomic, and the rest of a sum or product is growing. -/
def Proper (Extends : σ → σ → Prop) : ResultProperty σ
  | .sum, start, result => Atomic Extends start result
  | .factor, start, result => Atomic Extends start result
  | .moreTerms _, start, result => Growing Extends start result
  | .moreFactors _, start, result => Growing Extends start result

/-- A known name that is read is one of the names of the scope. -/
theorem mem_names_of_gives_knownName
    {name : String}
    (gives : (knownName scope).Gives name) :
    name ∈ scope.names := by
  obtain ⟨start, finish, outcome⟩ := gives
  simp only [knownName, run_token] at outcome
  split at outcome
  · next found =>
      simp only [Prod.mk.injEq, Option.some.injEq] at outcome
      exact outcome.1 ▸ Token.mem_of_anyOf found
  · simp at outcome

section

variable (reversible : scope.Reversible Extends)
include reversible

/-- A known name is taken as a whole or not at all. -/
theorem isAtomic_knownName : (knownName scope).IsAtomic Extends :=
  isAtomic_token reversible (Token.consumes_anyOf id scope.names)

theorem isAtomic_stepSymbol : (stepSymbol : Rule σ Step).IsAtomic Extends :=
  isAtomic_token reversible (Token.consumes_anyOf Step.symbol Step.all)

theorem isAtomic_operatorSymbol (operators : List Operator) :
    (operatorSymbol operators : Rule σ Operator).IsAtomic Extends :=
  isAtomic_token reversible (Token.consumes_anyOf Operator.symbol operators)

theorem isAtomic_character (expected : Char) :
    (token (Token.character expected) : Rule σ Unit).IsAtomic Extends :=
  isAtomic_token reversible (Token.consumes_character expected)

/-- Looking for the end of the text takes nothing. -/
theorem grows_endOfText : (endOfText : Rule σ Unit).Grows Extends :=
  fun start => .refl reversible start

/-- A step in front of a name takes both or nothing, since it is an attempt. -/
theorem isAtomic_stepBefore : (stepBefore scope).IsAtomic Extends := by
  refine Rule.Advances.attempt reversible ?_
  refine ((isAtomic_stepSymbol reversible).advances reversible).bind reversible ?_
  intro step _
  refine ((isAtomic_knownName reversible).grows reversible).bind reversible ?_
  intro name gives start
  have bound := mem_names_of_gives_knownName gives
  exact ⟨List.suffix_rfl, reversible.note bound start.steps step⟩

theorem isAtomic_stepAfter : (stepAfter scope).IsAtomic Extends := by
  refine Rule.Advances.attempt reversible ?_
  refine ((isAtomic_knownName reversible).advances reversible).bind reversible ?_
  intro name _
  refine ((isAtomic_stepSymbol reversible).grows reversible).bind reversible ?_
  intro step _
  exact grows_pure reversible _

theorem isAtomic_var :
    (Expr.var <$> token Token.identifier : Rule σ Expr).IsAtomic Extends :=
  (isAtomic_token reversible Token.consumes_identifier).map Expr.var

/-- A name or a numeral is taken as a whole or not at all. -/
theorem isAtomic_atom :
    (Expr.var <$> token Token.identifier <|>
      Expr.literal <$> token Token.number : Rule σ Expr).IsAtomic Extends :=
  (isAtomic_var reversible).orElse
    ((isAtomic_token reversible Token.consumes_number).map Expr.literal)

section

variable (proper : Satisfy entries (Proper Extends))
include proper

/-- A sum between parentheses moves on, whatever is built from it. -/
theorem advances_enclosed (build : Expr → Expr) :
    Rule.Advances Extends (do
      token (Token.character '(')
      let inner ← entries .sum
      token (Token.character ')')
      pure (build inner)) := by
  have sumAtomic : (entries .sum).IsAtomic Extends := proper .sum
  refine ((isAtomic_character reversible '(').advances reversible).bind
    reversible ?_
  intro _ _
  refine (sumAtomic.grows reversible).bind reversible ?_
  intro inner _
  refine ((isAtomic_character reversible ')').grows reversible).bind
    reversible ?_
  intro _ _
  exact grows_pure reversible _

/-- A group takes both parentheses or nothing. -/
theorem isAtomic_group : (group scope entries).IsAtomic Extends :=
  (advances_enclosed reversible proper fun inner => inner).attempt reversible

/-- A call takes all its parts or nothing. -/
theorem isAtomic_call : (call scope entries).IsAtomic Extends := by
  have name := (isAtomic_token reversible
    (Token.consumes_anyOf MathFunction.name MathFunction.all)).advances reversible
  refine (name.bind reversible ?_).attempt reversible
  intro function _
  exact (advances_enclosed reversible proper (.call function.name)).grows

theorem isAtomic_function : (function scope entries).IsAtomic Extends :=
  (isAtomic_stepBefore reversible).orElse
    ((isAtomic_stepAfter reversible).orElse (isAtomic_call reversible proper))

theorem isAtomic_operand : (operand scope entries).IsAtomic Extends :=
  (isAtomic_group reversible proper).orElse (isAtomic_atom reversible)

/-- A caret and the exponent behind it move on. -/
theorem advances_exponent (base : Expr) :
    Rule.Advances Extends (do
      token (Token.character '^')
      let exponent ← entries .factor
      pure (Expr.binary .exponentiation base exponent)) := by
  have factorAtomic : (entries .factor).IsAtomic Extends := proper .factor
  refine ((isAtomic_character reversible '^').advances reversible).bind
    reversible ?_
  intro _ _
  refine (factorAtomic.grows reversible).bind reversible ?_
  intro exponent _
  exact grows_pure reversible _

/-- A caret and its exponent are taken together or not at all, since they are an
attempt. -/
theorem isAtomic_power (base : Expr) :
    (power scope entries base).IsAtomic Extends :=
  (advances_exponent reversible proper base).attempt reversible

/-- A factor is atomic: without a power it is its base, so nothing after the
base can fail. -/
theorem isAtomic_factor : (factor scope entries).IsAtomic Extends := by
  refine (isAtomic_function reversible proper).orElse ?_
  refine (isAtomic_operand reversible proper).bind_total reversible ?_ ?_
  · intro base
    exact ((isAtomic_power reversible proper base).grows reversible).orElse
      reversible (grows_pure reversible base)
  · intro base state
    rw [Rule.run_orElse]
    rcases (power scope entries base).run state with ⟨_ | value, finish⟩ <;> rfl

omit proper in
/-- The rest of a sum or product grows when its operands and the entries for the
rest do. -/
theorem grows_more
    {operand : Rule σ Expr}
    {again : Expr → Rule σ Expr}
    (operators : List Operator)
    (operandGrows : operand.Grows Extends)
    (againGrows : ∀ left, (again left).Grows Extends)
    (left : Expr) :
    (more operators operand again left).Grows Extends := by
  refine (((isAtomic_operatorSymbol reversible operators).grows
    reversible).optional).bind reversible ?_
  intro found _
  cases found with
  | none => exact grows_pure reversible left
  | some operator =>
      refine operandGrows.bind reversible ?_
      intro right _
      exact againGrows _

omit proper in
/-- A sum or product is atomic when its operands are and the entries for the
rest grow. -/
theorem isAtomic_chain
    {operand : Rule σ Expr}
    {again : Expr → Rule σ Expr}
    (operators : List Operator)
    (operandAtomic : operand.IsAtomic Extends)
    (againGrows : ∀ left, (again left).Grows Extends) :
    (chain scope operators operand again).IsAtomic Extends := by
  refine Rule.Advances.attempt reversible ?_
  refine (operandAtomic.advances reversible).bind reversible ?_
  intro left _
  exact grows_more reversible operators (operandAtomic.grows reversible)
    againGrows left

/-- A product takes nothing when its first factor fails. -/
theorem isAtomic_product
    {factor : Rule σ Expr}
    (factorAtomic : factor.IsAtomic Extends) :
    (product scope factor entries).IsAtomic Extends :=
  isAtomic_chain reversible _ factorAtomic fun left => proper (.moreFactors left)

theorem isAtomic_sum
    {factor : Rule σ Expr}
    (factorAtomic : factor.IsAtomic Extends) :
    (sum scope factor entries).IsAtomic Extends :=
  isAtomic_chain reversible _
    (isAtomic_product reversible proper factorAtomic)
    fun left => proper (.moreTerms left)

end

/-- The rules over an atomic rule for factors pass on what they need of their
entries. -/
theorem proper_rulesOver
    {factor : Entries σ → Rule σ Expr}
    (factorAtomic : ∀ entries : Entries σ,
      Satisfy entries (Proper Extends) → (factor entries).IsAtomic Extends)
    (entries : Entries σ)
    (proper : Satisfy entries (Proper Extends)) :
    Satisfy (rulesOver scope factor entries) (Proper Extends) := by
  have here := factorAtomic entries proper
  intro entry
  cases entry with
  | sum => exact isAtomic_sum reversible proper here
  | factor => exact here
  | moreTerms left =>
      exact grows_more reversible _
        ((isAtomic_product reversible proper here).grows reversible)
        (fun left => proper (.moreTerms left)) left
  | moreFactors left =>
      exact grows_more reversible _ (here.grows reversible)
        (fun left => proper (.moreFactors left)) left

/-- Failing without change is all that the rules need of an entry. -/
theorem proper_stop (entry : Entry) (state : State σ) :
    Proper Extends entry state (none, state) := by
  cases entry with
  | sum => rfl
  | factor => rfl
  | moreTerms left => exact .refl reversible state
  | moreFactors left => exact .refl reversible state

/-- The parts of a calculation take all they need or nothing. -/
theorem proper_calculations :
    Satisfy (calculations scope) (Proper Extends) :=
  satisfy_close (proper_stop reversible)
    (proper_rulesOver reversible fun _ => isAtomic_factor reversible)

/-- Calculations that are taken only where less text remains are what the rules
need, too. -/
theorem proper_guarded (start : State σ) :
    Satisfy (guarded start (calculations scope)) (Proper Extends) :=
  satisfy_guarded (proper_stop reversible) fun entry state _ =>
    proper_calculations reversible entry state

/-- Calculations have every property that failing without change has and that
the rules pass on, given that their entries are atomic. -/
theorem satisfy_calculations
    {property : ResultProperty σ}
    (stop : ∀ entry state, property entry state (none, state))
    (pass : ∀ entries : Entries σ, Satisfy entries (Proper Extends) →
      Satisfy entries property →
      Satisfy (rulesOver scope (factor scope) entries) property) :
    Satisfy (calculations scope) property := by
  have both : Satisfy (calculations scope) fun entry start result =>
      Proper Extends entry start result ∧ property entry start result := by
    apply satisfy_close
    · exact fun entry state =>
        ⟨proper_stop reversible entry state, stop entry state⟩
    · intro entries bothHypothesis entry start
      have proper : Satisfy entries (Proper Extends) :=
        fun entry start => (bothHypothesis entry start).1
      have holds : Satisfy entries property :=
        fun entry start => (bothHypothesis entry start).2
      exact ⟨proper_rulesOver reversible (fun _ => isAtomic_factor reversible)
          entries proper entry start,
        pass entries proper holds entry start⟩
  exact fun entry start => (both entry start).2

section

variable (proper : Satisfy entries (Proper Extends))
include proper

/-- A sum up to the end of the text takes all of it or nothing. -/
theorem isAtomic_completeSum : (completeSum scope entries).IsAtomic Extends := by
  have sumAtomic : (entries .sum).IsAtomic Extends := proper .sum
  refine Rule.Advances.attempt reversible ?_
  refine (sumAtomic.advances reversible).bind reversible ?_
  intro value _
  refine (grows_endOfText reversible).bind reversible ?_
  intro _ _
  exact grows_pure reversible value

theorem isAtomic_plainAssignment (target : String) :
    (plainAssignment scope entries target).IsAtomic Extends := by
  refine Rule.Advances.attempt reversible ?_
  refine ((isAtomic_character reversible '=').advances reversible).bind
    reversible ?_
  intro _ _
  refine ((isAtomic_completeSum reversible proper).grows reversible).bind
    reversible ?_
  intro value _
  exact grows_pure reversible _

theorem isAtomic_operatorAssignment (target : String) (operator : Operator) :
    (operatorAssignment scope entries target operator).IsAtomic Extends := by
  have symbol := isAtomic_token reversible
    (Token.consumes_literal operator.compoundSymbol)
  refine Rule.Advances.attempt reversible ?_
  refine (symbol.advances reversible).bind reversible ?_
  intro _ _
  refine ((isAtomic_completeSum reversible proper).grows reversible).bind
    reversible ?_
  intro value _
  exact grows_pure reversible _

theorem isAtomic_compoundAssignment (target : String) :
    (compoundAssignment scope entries target).IsAtomic Extends := by
  unfold compoundAssignment
  split
  · exact isAtomic_firstM fun operator _ =>
      isAtomic_operatorAssignment reversible proper target operator
  · exact isAtomic_failure

theorem isAtomic_assignment : (assignment scope entries).IsAtomic Extends := by
  have name := isAtomic_token reversible Token.consumes_identifier
  refine Rule.Advances.attempt reversible ?_
  refine (name.advances reversible).bind reversible ?_
  intro target _
  exact ((isAtomic_plainAssignment reversible proper target).orElse
    (isAtomic_compoundAssignment reversible proper target)).grows reversible

/-- A statement takes all of the text or nothing. -/
theorem isAtomic_statement : (statement scope entries).IsAtomic Extends :=
  (isAtomic_assignment reversible proper).orElse
    (isAtomic_completeSum reversible proper)

end

end

end Grammar

end LineCalculator
