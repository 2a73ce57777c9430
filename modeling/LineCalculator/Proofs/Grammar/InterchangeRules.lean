import LineCalculator.Proofs.Grammar.Interchange

/-!
# Rules with interchangeable environments

The rules of calculations have the same settled results with interchangeable
environments at the start of a word, by induction on the length of the text.
What follows a settled result starts with a symbol, behind which a word starts
again. A sum that takes up the whole text, or is followed by a parenthesis, is
settled, so groups, calls and statements are found alike.
-/

namespace LineCalculator

open Token (IsIdentifier Stops StartsWord first?)

namespace Grammar

variable
  {text : List Char}
  {left right environment : Environment}
  {start : State (List StagedStep)}
  {entries entries' : Entries (List StagedStep)}
  {bound : Nat}

/-- Two rules have the same settled results on texts of a kind that are shorter
than a bound. -/
def Alike
    (kind : List Char → Prop)
    (bound : Nat)
    (rule rule' : Rule σ α) : Prop :=
  ∀ start, kind start.rest → start.rest.length < bound →
    rule.settled start = rule'.settled start

/-- Proper entries, where the rest of a sum or product finds nothing settled in
a blocked text. -/
structure Ready
    (environment : Environment)
    (entries : Entries (List StagedStep)) : Prop where
  proper : Satisfy entries (Proper (Appends environment.names))
  moreTerms : ∀ start state, blocked state.rest = true →
    (entries (.moreTerms start)).settled state = none
  moreFactors : ∀ start state, blocked state.rest = true →
    (entries (.moreFactors start)).settled state = none

/-- All entries have the same settled results on short ends of a text, sums and
factors at the start of a word. -/
structure AlikeEntries
    (text : List Char)
    (bound : Nat)
    (entries entries' : Entries (List StagedStep)) : Prop where
  sum : Alike (StartsWord text) bound (entries .sum) (entries' .sum)
  factor : Alike (StartsWord text) bound (entries .factor) (entries' .factor)
  moreTerms : ∀ start, Alike (· <:+ text) bound
    (entries (.moreTerms start)) (entries' (.moreTerms start))
  moreFactors : ∀ start, Alike (· <:+ text) bound
    (entries (.moreFactors start)) (entries' (.moreFactors start))

theorem Alike.mono
    {kind : List Char → Prop}
    {smaller : Nat}
    {rule rule' : Rule σ α}
    (alike : Alike kind bound rule rule')
    (le : smaller ≤ bound) :
    Alike kind smaller rule rule' :=
  fun start isKind short => alike start isKind (Nat.lt_of_lt_of_le short le)

section

variable
  (alike : AlikeEntries text bound entries entries')
  (suffix : start.rest <:+ text)
  (short : start.rest.length < bound + 1)
include alike suffix short

/-- What stands in parentheses is found alike, since a parenthesis is never
blocked. -/
theorem found_enclosed (build : Expr → Expr) :
    Rule.found (do
        token (Token.character '(')
        let inner ← entries .sum
        token (Token.character ')')
        pure (build inner)) start =
      Rule.found (do
        token (Token.character '(')
        let inner ← entries' .sum
        token (Token.character ')')
        pure (build inner)) start := by
  apply found_bind_token_congr
  intro _ rest read
  have startsWord := Token.startsWord_of_character suffix read
    (by decide) (by decide)
  have shorter := (Token.consumes_character '(' _ _ _ read).shorter
  refine found_bind_congr (alike.sum _ startsWord ?_) ?_
  · exact Nat.lt_of_lt_of_le shorter (Nat.le_of_lt_succ short)
  · intro inner finish isBlocked
    exact (misses_token (character_eq_none_of_blocked isBlocked
      ⟨by decide, by decide⟩)).bind.found_eq

theorem found_group :
    (group (.staging left) entries).found start =
      (group (.staging right) entries').found start := by
  rw [group, group, found_attempt, found_attempt]
  exact found_enclosed alike suffix short id

theorem found_call :
    (call (.staging left) entries).found start =
      (call (.staging right) entries').found start := by
  rw [call, call, found_attempt, found_attempt]
  apply found_bind_token_congr
  intro function rest read
  have leaves := Token.consumes_anyOf _ _ _ _ _ read
  exact found_enclosed alike (leaves.suffix.trans suffix)
    (leaves.shorter.trans short) (.call function.name)

theorem found_operand
    (ready : Ready left entries)
    (ready' : Ready right entries') :
    (operand (.staging left) entries).found start =
      (operand (.staging right) entries').found start := by
  have atomic := isAtomic_group (reversible_staging left) ready.proper
  have atomic' := isAtomic_group (reversible_staging right) ready'.proper
  rw [operand, operand, atomic.found_orElse, atomic'.found_orElse,
    found_group alike suffix short]

/-- An operand and its exponent, if there is one. -/
theorem settled_power
    (ready : Ready left entries)
    (ready' : Ready right entries')
    (base : Expr) :
    (power (.staging left) entries base <|> pure base).settled start =
      (power (.staging right) entries' base <|> pure base).settled start := by
  have atomic := isAtomic_power (reversible_staging left) ready.proper base
  have atomic' := isAtomic_power (reversible_staging right) ready'.proper base
  rcases read : Token.character '^' start.rest with _ | ⟨⟨⟩, rest⟩
  · have misses (environment : Environment)
        (entries : Entries (List StagedStep)) :
        (power (.staging environment) entries base).Misses start :=
      (misses_token read).bind.attempt
    exact atomic.settled_orElse_congr atomic'
      ((misses left entries).found_eq.trans (misses right entries').found_eq.symm)
      rfl
  · -- Without an exponent the caret is left, and the result is blocked.
    have isBlocked : blocked start.rest = true := by
      have isFirst : first? start.rest = some '^' := by
        rw [first?, ← Token.character_eq_some_iff.mp read]
        rfl
      simp [blocked, isFirst]
    have startsWord := Token.startsWord_of_character suffix read
      (by decide) (by decide)
    have shorter := (Token.consumes_character '^' _ _ _ read).shorter
    rw [atomic.settled_orElse_pure isBlocked,
      atomic'.settled_orElse_pure isBlocked, power, power, settled_attempt,
      settled_attempt]
    apply settled_bind_token_congr
    intro _ rest' read'
    obtain rfl : rest = rest' := by simpa [read] using read'
    refine settled_bind_congr (alike.factor _ startsWord ?_) ?_ ?_ ?_
    · exact Nat.lt_of_lt_of_le shorter (Nat.le_of_lt_succ short)
    · exact fun _ _ isBlocked => settled_pure_of_blocked isBlocked _
    · exact fun _ _ isBlocked => settled_pure_of_blocked isBlocked _
    · exact fun _ _ _ => rfl

end

/-- Where the symbol of a step stands, a factor is a step before a name. -/
theorem found_factor_of_step
    (identifiers : ∀ name ∈ environment.names, IsIdentifier name.toList)
    (proper : Satisfy entries (Proper (Appends environment.names)))
    {step : Step}
    {after : List Char}
    (read : Token.anyOf Step.symbol Step.all start.rest = some (step, after)) :
    (factor (.staging environment) entries).found start =
      (stepBefore (.staging environment)).found start := by
  have reversible := reversible_staging environment
  have isFirst := first?_of_stepSymbol read
  have kind : step.mark ≠ '(' ∧ step.mark.isAlpha = false ∧
      step.mark.isDigit = false := by
    cases step <;> decide
  have notAlpha : ∀ first ∈ first? start.rest, first.isAlpha = false := by
    rw [isFirst]
    rintro _ ⟨⟩
    exact kind.2.1
  have afterMisses : (stepAfter (.staging environment)).Misses start :=
    stepAfter_misses_of_first identifiers notAlpha
  have callMisses : (call (.staging environment) entries).Misses start :=
    call_misses_of_first notAlpha
  have groupMisses : (group (.staging environment) entries).Misses start := by
    apply group_misses
    rw [isFirst]
    exact fun same => kind.1 (Option.some.inj same)
  have operandMisses : (operand (.staging environment) entries).Misses start := by
    apply operand_misses proper groupMisses notAlpha
    rw [isFirst]
    rintro _ ⟨⟩
    exact kind.2.2
  rw [factor, (isAtomic_function reversible proper).found_orElse, function,
    (isAtomic_stepBefore reversible).found_orElse,
    (isAtomic_stepAfter reversible).found_orElse, afterMisses.found_eq,
    callMisses.found_eq, operandMisses.bind.found_eq, Option.or_none,
    Option.or_none, Option.or_none]

section

variable
  (both : Environment.Interchangeable text left right)
  (alike : AlikeEntries text bound entries entries')
include both alike

/-- Without the symbol of a step in front functions are found alike. -/
theorem found_function
    (startsWord : StartsWord text start.rest)
    (short : start.rest.length < bound + 1)
    (noStep : Token.anyOf Step.symbol Step.all start.rest = none) :
    (function (.staging left) entries).found start =
      (function (.staging right) entries').found start := by
  have reversible := reversible_staging left
  have reversible' := reversible_staging right
  have beforeMisses (environment : Environment) :
      (stepBefore (.staging environment)).Misses start :=
    (misses_token noStep).bind.attempt
  rw [function, function,
    (isAtomic_stepBefore reversible).found_orElse,
    (isAtomic_stepBefore reversible').found_orElse,
    (isAtomic_stepAfter reversible).found_orElse,
    (isAtomic_stepAfter reversible').found_orElse,
    (beforeMisses left).found_eq, (beforeMisses right).found_eq,
    found_stepAfter both startsWord, found_call alike startsWord.suffix short]

/-- Factors settle alike where a word starts. -/
theorem alike_factor
    (ready : Ready left entries)
    (ready' : Ready right entries') :
    Alike (StartsWord text) (bound + 1)
      (factor (.staging left) entries) (factor (.staging right) entries') := by
  intro start startsWord short
  have suffix := startsWord.suffix
  have reversible := reversible_staging left
  have reversible' := reversible_staging right
  rcases read : Token.anyOf Step.symbol Step.all start.rest with
    _ | ⟨step, after⟩
  · have functions := found_function both alike startsWord short read
    refine (isAtomic_function reversible ready.proper).settled_orElse_congr
      (isAtomic_function reversible' ready'.proper) functions ?_
    rw [settled_bind, settled_bind,
      found_operand alike suffix short ready ready']
    apply Option.bind_congr
    rintro ⟨base, finish⟩ found
    have grows := (isAtomic_operand reversible' ready'.proper).grows reversible'
    have reaches : finish.rest <:+ start.rest := by
      simpa [Rule.found_eq_some_iff.mp found] using (grows start).suffix
    exact settled_power alike (reaches.trans suffix)
      (Nat.lt_of_le_of_lt reaches.length_le short) ready ready' base
  · rw [Rule.settled_congr
        (found_factor_of_step both.leftIdentifiers ready.proper read),
      Rule.settled_congr
        (found_factor_of_step both.rightIdentifiers ready'.proper read)]
    exact settled_stepBefore both suffix

end

/-- No operator of a sum or product is read where the text is blocked. -/
theorem operatorSymbol_eq_none_of_blocked
    {operators : List Operator}
    {rest : List Char}
    (joins : Operator.exponentiation ∉ operators)
    (isBlocked : blocked rest = true) :
    Token.anyOf Operator.symbol operators rest = none := by
  obtain ⟨first, isFirst, kind⟩ := first?_of_blocked isBlocked
  apply Token.anyOf_eq_none
  intro operator member same
  rw [operator.symbol_toList, List.head?_cons, isFirst, Option.some_inj] at same
  subst same
  cases operator with
  | exponentiation => exact joins member
  | _ => revert kind; decide

/-- Nothing more settles where the text is blocked. -/
theorem settled_more_of_blocked
    {operators : List Operator}
    {operand : Rule σ Expr}
    {again : Expr → Rule σ Expr}
    {start : State σ}
    (joins : Operator.exponentiation ∉ operators)
    (isBlocked : blocked start.rest = true)
    (before : Expr) :
    (more operators operand again before).settled start = none := by
  rw [more, settled_bind, operatorSymbol, found_optional_token,
    operatorSymbol_eq_none_of_blocked joins isBlocked]
  exact settled_pure_of_blocked isBlocked before

section

variable
  {operators : List Operator}
  {operand operand' : Rule (List StagedStep) Expr}
  {again again' : Expr → Rule (List StagedStep) Expr}
  (againStuck : ∀ before state, blocked state.rest = true →
    (again before).settled state = none)
  (againStuck' : ∀ before state, blocked state.rest = true →
    (again' before).settled state = none)
  (againAlike : ∀ before,
    Alike (· <:+ text) bound (again before) (again' before))
include againStuck againStuck' againAlike

/-- Chains go on alike when their operands settle alike. -/
theorem alike_more
    {Extends : List StagedStep → List StagedStep → Prop}
    (operands : Alike (StartsWord text) bound operand operand')
    (grows : operand'.Grows Extends)
    (before : Expr) :
    Alike (· <:+ text) (bound + 1)
      (more operators operand again before)
      (more operators operand' again' before) := by
  intro start suffix short
  rw [more, more, settled_bind, settled_bind, operatorSymbol,
    found_optional_token]
  rcases read : Token.anyOf Operator.symbol operators start.rest with
    _ | ⟨operator, rest⟩
  · rfl
  · have startsWord := (Token.isSymbol_operator operator).startsWord suffix
      (Token.split_of_anyOf read)
    have shorter := (Token.consumes_anyOf _ _ _ _ _ read).shorter
    have below : rest.length < bound :=
      Nat.lt_of_lt_of_le shorter (Nat.le_of_lt_succ short)
    refine settled_bind_congr (operands _ startsWord below)
      (fun _ => againStuck _) (fun _ => againStuck' _) ?_
    intro value finish outcome
    have reaches : finish.rest <:+ rest := by
      simpa [outcome] using (grows ⟨rest, start.steps⟩).suffix
    exact againAlike _ finish (reaches.trans startsWord.suffix)
      (Nat.lt_of_le_of_lt reaches.length_le below)

/-- Chains settle alike when their operands do. -/
theorem alike_chain
    {Extends : List StagedStep → List StagedStep → Prop}
    (joins : Operator.exponentiation ∉ operators)
    (operands : Alike (StartsWord text) (bound + 1) operand operand')
    (grows : operand'.Grows Extends) :
    Alike (StartsWord text) (bound + 1)
      (chain (.staging left) operators operand again)
      (chain (.staging right) operators operand' again') := by
  intro start startsWord short
  rw [chain, chain, settled_attempt, settled_attempt]
  refine settled_bind_congr (operands start startsWord short)
    (fun _ _ isBlocked => settled_more_of_blocked joins isBlocked _)
    (fun _ _ isBlocked => settled_more_of_blocked joins isBlocked _) ?_
  intro before finish outcome
  have reaches : finish.rest <:+ start.rest := by
    simpa [outcome] using (grows start).suffix
  exact alike_more againStuck againStuck' againAlike
    (operands.mono (Nat.le_succ bound)) grows before finish
    (reaches.trans startsWord.suffix)
    (Nat.lt_of_le_of_lt reaches.length_le short)

end

end Grammar

end LineCalculator
