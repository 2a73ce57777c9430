import LineCalculator.Proofs.Grammar.CoupledStatements
import LineCalculator.Proofs.Grammar.StagedAttempts
import LineCalculator.Statement

/-!
# The plain rule for factors

    factor := power | term
    power  := function | term "^" factor
    term   := "(" sum ")" | function | name | numeral

Read in this way, a term without a caret is read once as the base of a power,
given back, and read again. The second reading starts from the state of the
first one, since whatever a failed power had taken and noted is undone, so it
gives the same term. Hence the rule that reads each part once gives the same
results from every state.
-/

namespace LineCalculator

namespace Grammar

/-- A sum between parentheses, a function, a name or a numeral. -/
def plainTerm (scope : Scope σ) (entries : Entries σ) : Rule σ Expr :=
  attempt scope
    (group scope entries <|>
      function scope entries <|>
      Expr.var <$> token Token.identifier <|>
      Expr.literal <$> token Token.number)

/-- A caret and the factor to whose power a base is raised. -/
def raised (entries : Entries σ) (base : Expr) : Rule σ Expr := do
  token (Token.character '^')
  let exponent ← entries .factor
  pure (.binary .exponentiation base exponent)

/-- A function, or a term raised to a power. -/
def plainPower (scope : Scope σ) (entries : Entries σ) : Rule σ Expr :=
  attempt scope
    (function scope entries <|> do
      let base ← plainTerm scope entries
      raised entries base)

/-- A power, or a term alone. -/
def plainFactor (scope : Scope σ) (entries : Entries σ) : Rule σ Expr :=
  attempt scope (plainPower scope entries <|> plainTerm scope entries)

/-- The rules of calculations with the plain rule for factors, tied together. -/
def plainCalculations (scope : Scope σ) : Entries σ :=
  close (rulesOver scope (plainFactor scope))

section

variable
  {scope : Scope σ}
  {Extends : σ → σ → Prop}
  {entries : Entries σ}
  (reversible : scope.Reversible Extends)
include reversible

/-- An attempt of an atomic rule is that rule. -/
theorem attempt_eq_of_isAtomic
    {rule : Rule σ α}
    (atomic : rule.IsAtomic Extends) :
    attempt scope rule = rule := by
  apply Rule.ext
  intro start
  have result := atomic start
  rw [run_attempt]
  generalize rule.run start = outcome at result ⊢
  rcases outcome with ⟨_ | value, finish⟩
  · have same : finish = start := result
    rw [same]
    simp only [reversible.rewind (reversible.refl start.steps)]
  · rfl

variable (proper : Satisfy entries (Proper Extends))
include proper

theorem isAtomic_termChoice :
    (group scope entries <|>
      function scope entries <|>
      Expr.var <$> token Token.identifier <|>
      Expr.literal <$> token Token.number).IsAtomic Extends :=
  (isAtomic_group reversible proper).orElse
    ((isAtomic_function reversible proper).orElse (isAtomic_atom reversible))

/-- A plain term takes nothing when none of its forms is there. -/
theorem isAtomic_plainTerm : (plainTerm scope entries).IsAtomic Extends :=
  ((isAtomic_termChoice reversible proper).advances reversible).attempt reversible

/-- A plain power takes all its parts or nothing. -/
theorem isAtomic_plainPower : (plainPower scope entries).IsAtomic Extends := by
  have term := (isAtomic_plainTerm reversible proper).advances reversible
  have power := term.bind reversible fun base _ =>
    (advances_exponent reversible proper base).grows
  have function := (isAtomic_function reversible proper).advances reversible
  exact (function.orElse reversible power).attempt reversible

/-- Where no function is found, a term is an operand. -/
theorem run_plainTerm_of_function_eq_none
    {start : State σ}
    (noFunction : (function scope entries).run start = (none, start)) :
    (plainTerm scope entries).run start = (operand scope entries).run start := by
  rw [plainTerm, attempt_eq_of_isAtomic reversible
    (isAtomic_termChoice reversible proper), operand]
  simp only [Rule.run_orElse]
  have atomic := isAtomic_group reversible proper start
  generalize (group scope entries).run start = outcome at atomic ⊢
  rcases outcome with ⟨_ | value, state⟩
  · have same : state = start := atomic
    rw [same]
    simp only [noFunction]
  · rfl

/-- A power that is not found is given back as a whole, with its base. -/
theorem run_plainPower_of_function_eq_none
    {start : State σ}
    (noFunction : (function scope entries).run start = (none, start)) :
    (plainPower scope entries).run start =
      match (operand scope entries).run start with
      | (none, _) => (none, start)
      | (some base, state) =>
          match (raised entries base).run state with
          | (none, _) => (none, start)
          | (some value, finish) => (some value, finish) := by
  have atomic := isAtomic_plainPower reversible proper start
  have term := run_plainTerm_of_function_eq_none reversible proper noFunction
  simp only [plainPower, run_attempt, Rule.run_orElse, noFunction,
    Rule.run_bind, term] at atomic ⊢
  generalize (operand scope entries).run start = base at atomic ⊢
  rcases base with ⟨_ | base, state⟩
  · exact congrArg (Prod.mk none) atomic
  · dsimp only at atomic ⊢
    generalize (raised entries base).run state = power at atomic ⊢
    rcases power with ⟨_ | value, finish⟩
    · exact congrArg (Prod.mk none) atomic
    · rfl

/-- A power that is not found is given back without its base. -/
theorem run_factor_of_function_eq_none
    {start : State σ}
    (noFunction : (function scope entries).run start = (none, start)) :
    (factor scope entries).run start =
      match (operand scope entries).run start with
      | (none, _) => (none, start)
      | (some base, state) =>
          match (raised entries base).run state with
          | (none, _) => (some base, state)
          | (some value, finish) => (some value, finish) := by
  have operandAtomic := isAtomic_operand reversible proper start
  simp only [factor, Rule.run_orElse, noFunction, Rule.run_bind]
  generalize (operand scope entries).run start = base at operandAtomic ⊢
  rcases base with ⟨_ | base, state⟩
  · exact congrArg (Prod.mk none) operandAtomic
  · have powerAtomic := isAtomic_power reversible proper base state
    have power_eq :
        power scope entries base = attempt scope (raised entries base) := rfl
    simp only [power_eq, run_attempt] at powerAtomic ⊢
    generalize (raised entries base).run state = power at powerAtomic ⊢
    rcases power with ⟨_ | value, finish⟩
    · exact congrArg (Prod.mk (some base)) powerAtomic
    · rfl

/-- The plain rule for factors reads what the rule reads that takes each part
once. -/
theorem plainFactor_eq_factor :
    plainFactor scope entries = factor scope entries := by
  have power := isAtomic_plainPower reversible proper
  have term := isAtomic_plainTerm reversible proper
  rw [plainFactor, attempt_eq_of_isAtomic reversible (power.orElse term)]
  apply Rule.ext
  intro start
  have functionAtomic := isAtomic_function reversible proper start
  rcases functionOutcome : (function scope entries).run start with
    ⟨_ | value, finish⟩
  · rw [functionOutcome] at functionAtomic
    have same : finish = start := functionAtomic
    rw [same] at functionOutcome
    rw [Rule.run_orElse,
      run_plainPower_of_function_eq_none reversible proper functionOutcome,
      run_factor_of_function_eq_none reversible proper functionOutcome]
    have second :=
      run_plainTerm_of_function_eq_none reversible proper functionOutcome
    have operandAtomic := isAtomic_operand reversible proper start
    generalize (operand scope entries).run start = base at second operandAtomic ⊢
    rcases base with ⟨_ | base, state⟩
    · rw [show state = start from operandAtomic] at second
      exact second
    · dsimp only
      rcases (raised entries base).run state with ⟨_ | value, finish⟩
      · exact second
      · rfl
  · simp only [factor, plainPower, Rule.run_orElse, run_attempt, functionOutcome]

theorem rulesOver_plainFactor :
    rulesOver scope (plainFactor scope) entries =
      rulesOver scope (factor scope) entries := by
  have factors := plainFactor_eq_factor reversible proper
  funext entry
  cases entry <;> simp only [rulesOver, factors]

end

/-- With either rule for factors the tied rules are the same. -/
theorem plainCalculations_eq_calculations
    {scope : Scope σ}
    {Extends : σ → σ → Prop}
    (reversible : scope.Reversible Extends) :
    plainCalculations scope = calculations scope := by
  refine close_congr (proper_stop reversible) ?_ ?_
  · exact proper_rulesOver reversible fun _ => isAtomic_factor reversible
  · intro entries proper
    exact rulesOver_plainFactor reversible proper

end Grammar

namespace Statement

/-- Read a statement with the plain rule for factors. -/
def plainParse? (text : String) (environment : Environment) : Option Statement :=
  let scope := Scope.staging environment
  ofResult? ((Grammar.statement scope (Grammar.plainCalculations scope)).run
    ⟨text.toList, []⟩)

/-- Reading with the plain rule for factors, which is an entry of its own rules
without any guard, gives for every entry, every part and the whole statement
the same value, the same rest and the same staged steps from every state. -/
theorem plainParse?_eq_parse? (environment : Environment) :
    let scope := Scope.staging environment
    let plain := Grammar.plainCalculations scope
    plain = Grammar.rulesOver scope (Grammar.plainFactor scope) plain ∧
    (∀ entry start,
      (plain entry).run start = (Grammar.calculations scope entry).run start) ∧
    (∀ part start,
      (Grammar.Part.ruleOver scope (Grammar.plainFactor scope plain) plain
        part).run start = (part.rule scope).run start) ∧
    (∀ start,
      (Grammar.statement scope plain).run start =
        (Grammar.statement scope (Grammar.calculations scope)).run start) ∧
    ∀ text, plainParse? text environment = parse? text environment := by
  intro scope plain
  have reversible := Grammar.reversible_staging environment
  have plain_eq : plain = Grammar.calculations scope :=
    Grammar.plainCalculations_eq_calculations reversible
  have proper := Grammar.proper_calculations reversible
  have factors :
      Grammar.plainFactor scope plain =
        Grammar.factor scope (Grammar.calculations scope) := by
    rw [plain_eq]
    exact Grammar.plainFactor_eq_factor reversible proper
  refine ⟨?_, ?_, ?_, ?_, ?_⟩
  · rw [plain_eq, Grammar.rulesOver_plainFactor reversible proper]
    exact Grammar.calculations_eq reversible
  · intro entry start
    rw [plain_eq]
  · intro part start
    rw [factors, plain_eq]
    rfl
  · intro start
    rw [plain_eq]
  · intro text
    have same :
        (Grammar.statement scope plain).run ⟨text.toList, []⟩ =
          (Grammar.statement scope (Grammar.calculations scope)).run
            ⟨text.toList, []⟩ := by
      rw [plain_eq]
    exact congrArg ofResult? same

end Statement

end LineCalculator
