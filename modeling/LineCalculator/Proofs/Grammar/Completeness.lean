import LineCalculator.Proofs.Grammar.FactorCompleteness
import LineCalculator.Proofs.Grammar.Soundness

/-!
# Statements that can be derived are read

The rules for sums and products take factors as long as operators follow, and so
they take a whole chain of factors up to the text that closes it. A statement
that can be derived is therefore read, be it in another way than it was derived.
As what is read can be derived, the rules read exactly the language of the
context-free grammar, although they take the first alternative that is found and
every token as far as it reaches.
-/

namespace LineCalculator

namespace Grammar

open Token (Written first? Stops)

section

variable
  {Extends : σ → σ → Prop}
  {operators : List Operator}
  {operator : Operator}
  {operand : Rule σ Expr}
  {again : Expr → Rule σ Expr}
  {left : Expr}
  {start : State σ}
  {text rest : List Char}
  {steps : σ}

/-- Without an operator there is nothing more. -/
theorem run_more_of_none
    (read : Token.anyOf Operator.symbol operators start.rest = none) :
    (more operators operand again left).run start = (some left, start) := by
  simp only [more, operatorSymbol, Rule.run_bind, Rule.run_optional, run_token,
    read, Rule.run_pure]

/-- Behind an operator there are its right side and then more. -/
theorem run_more_of_some
    (read : Token.anyOf Operator.symbol operators start.rest =
      some (operator, rest)) :
    (more operators operand again left).run start =
      Rule.run (do
        let right ← operand
        again (.binary operator left right)) ⟨rest, start.steps⟩ := by
  simp only [more, operatorSymbol, Rule.run_bind, Rule.run_optional, run_token,
    read]

/-- What stands in front of the operands of a sum or product holds behind the
last one as well, and no operator follows there. -/
theorem exists_more_finds
    {property : List Char → Prop}
    {bound : Nat}
    (unfolds : ∀ left, again left = more operators operand again left)
    (grows : operand.Grows Extends)
    (operandFinds : ∀ text operator rest steps, text.length < bound →
      property text →
      Token.anyOf Operator.symbol operators text = some (operator, rest) →
      ∃ after, operand.Finds ⟨rest, steps⟩ after ∧ property after)
    (short : text.length < bound)
    (holds : property text) :
    ∃ rest, (more operators operand again left).Finds ⟨text, steps⟩ rest ∧
      property rest ∧ Token.anyOf Operator.symbol operators rest = none := by
  induction length : text.length using Nat.strongRecOn
    generalizing text left steps with
  | ind length lengthHypothesis =>
      rcases read : Token.anyOf Operator.symbol operators text with
        _ | ⟨operator, rest⟩
      · exact ⟨text, ⟨left, steps, run_more_of_none read⟩, holds, read⟩
      · obtain ⟨after, finds, holdsAfter⟩ :=
          operandFinds text operator rest steps short holds read
        have symbolTaken :=
          (Token.consumes_anyOf Operator.symbol operators text _ _ read).shorter
        have operandTaken := (finds.suffix grows).length_le
        simp only at operandTaken
        obtain ⟨last, ⟨value, finish, outcome⟩, lastHolds⟩ : ∃ last,
            Rule.Finds (do
              let right ← operand
              again (.binary operator left right)) ⟨rest, steps⟩ last ∧
            property last ∧
              Token.anyOf Operator.symbol operators last = none := by
          refine finds.exists_bind ?_
          intro right steps
          rw [unfolds]
          exact lengthHypothesis after.length (by omega) (by omega) holdsAfter rfl
        exact ⟨last, ⟨value, finish, (run_more_of_some read).trans outcome⟩,
          lastHolds⟩

/-- A chain is found when its first operand is, and one behind every operator,
and then no operator is left. -/
theorem exists_chain_finds
    {scope : Scope σ}
    {property : List Char → Prop}
    {bound : Nat}
    (unfolds : ∀ left, again left = more operators operand again left)
    (grows : operand.Grows Extends)
    (operandFinds : ∀ text operator rest steps, text.length < bound →
      property text →
      Token.anyOf Operator.symbol operators text = some (operator, rest) →
      ∃ after, operand.Finds ⟨rest, steps⟩ after ∧ property after)
    (short : text.length < bound)
    (first : ∃ after, operand.Finds ⟨text, steps⟩ after ∧ property after) :
    ∃ rest, (chain scope operators operand again).Finds ⟨text, steps⟩ rest ∧
      property rest ∧ Token.anyOf Operator.symbol operators rest = none := by
  obtain ⟨after, finds, holds⟩ := first
  have taken := (finds.suffix grows).length_le
  obtain ⟨rest, later, restHolds⟩ : ∃ rest,
      (operand >>= more operators operand again).Finds ⟨text, steps⟩ rest ∧
        property rest ∧ Token.anyOf Operator.symbol operators rest = none := by
    refine finds.exists_bind ?_
    intro left steps
    exact exists_more_finds unfolds grows operandFinds (taken.trans_lt short) holds
  exact ⟨rest, later.attempt, restHolds⟩

end

section

variable
  {environment : Environment}
  {bound : Nat}
  {text rest : List Char}
  {steps : List StagedStep}

/-- An operator in a text that continues a calculation joins what stands behind
it. -/
theorem Continues.joined_of_anyOf
    {names : List String}
    {operators : List Operator}
    {operator : Operator}
    {after : List Char}
    (continues : Continues names text rest)
    (read : Token.anyOf Operator.symbol operators text =
      some (operator, after)) :
    Joined names after rest := by
  have split := Token.split_of_anyOf read
  rw [operator.symbol_toList] at split
  exact continues.joined split

section

variable (factors : FactorsFound environment.names
  (factor (.staging environment) (calculations (.staging environment))) bound)
include factors

/-- The rule for products takes factors from a chain until a term or the end of
the chain follows. -/
theorem exists_product_finds
    (short : text.length < bound)
    (joined : Joined environment.names text rest) :
    ∃ after, (product (.staging environment)
        (factor (.staging environment) (calculations (.staging environment)))
        (calculations (.staging environment))).Finds ⟨text, steps⟩ after ∧
      Continues environment.names after rest ∧
      Token.anyOf Operator.symbol Operator.multiplicative after = none := by
  have reversible := reversible_staging environment
  have proper := proper_calculations reversible
  have unfolds (left : Expr) :=
    congrFun (calculations_eq reversible) (.moreFactors left)
  refine exists_chain_finds unfolds
    ((isAtomic_factor reversible proper).grows reversible) ?_ short
    (factors text rest steps short joined)
  intro text operator after steps short continues read
  have taken :=
    (Token.consumes_anyOf Operator.symbol _ text _ _ read).shorter
  exact factors after rest steps (taken.trans short)
    (continues.joined_of_anyOf read)

/-- The rule for sums takes a whole chain. -/
theorem sumsFound_calculations :
    SumsFound environment.names (calculations (.staging environment)) bound := by
  have reversible := reversible_staging environment
  have proper := proper_calculations reversible
  have factorAtomic := isAtomic_factor reversible proper
  have unfolds (left : Expr) :=
    congrFun (calculations_eq reversible) (.moreTerms left)
  intro text rest steps short joined
  obtain ⟨last, finds, ⟨continues, noFactor⟩, noTerm⟩ : ∃ last,
      (sum (.staging environment)
        (factor (.staging environment) (calculations (.staging environment)))
        (calculations (.staging environment))).Finds ⟨text, steps⟩ last ∧
      (Continues environment.names last rest ∧
        Token.anyOf Operator.symbol Operator.multiplicative last = none) ∧
      Token.anyOf Operator.symbol Operator.additive last = none := by
    refine exists_chain_finds unfolds
      ((isAtomic_product reversible proper factorAtomic).grows reversible) ?_
      short (exists_product_finds factors short joined)
    intro text operator after steps short settled read
    have taken :=
      (Token.consumes_anyOf Operator.symbol _ text _ _ read).shorter
    exact exists_product_finds factors (taken.trans short)
      (settled.1.joined_of_anyOf read)
  rw [calculations_eq reversible]
  rw [continues.eq_of_none noTerm noFactor] at finds
  exact finds

end

variable
  (identifiers : ∀ name ∈ environment.names, Token.IsIdentifier name.toList)
include identifiers

/-- The rule for factors takes a factor from every chain, in texts of every
length. -/
theorem factorsFound_calculations (bound : Nat) :
    FactorsFound environment.names
      (factor (.staging environment) (calculations (.staging environment)))
      bound := by
  have reversible := reversible_staging environment
  induction bound with
  | zero => exact fun text rest steps short => absurd short (Nat.not_lt_zero _)
  | succ bound factors =>
      refine factorsFound_factor identifiers (proper_calculations reversible)
        (sumsFound_calculations factors) ?_
      rw [calculations_eq reversible]
      exact factors

section

variable
  {word blanks : List Char}
  {phrase : Phrase}
  (derived : Derives environment.names .sum word phrase)
  (blank : ∀ character ∈ blanks, isBlank character = true)
include derived blank

/-- A sum with nothing but blanks behind it is read up to the end. -/
theorem completeSum_finds :
    (completeSum (.staging environment) (calculations (.staging environment))).Finds
      ⟨word ++ blanks, steps⟩ blanks := by
  have nothing : skipBlanks blanks = [] := by
    simpa [skipBlanks] using blank
  have closes : Closes blanks := by
    intro first isFirst
    simp [first?, nothing] at isFirst
  have joined : Joined environment.names (word ++ blanks) blanks :=
    .of_sum derived (.close closes)
  have sums := sumsFound_calculations
    (factorsFound_calculations identifiers ((word ++ blanks).length + 1))
  refine Rule.Finds.attempt (Rule.Finds.bind
    (sums _ _ steps (Nat.lt_succ_self _) joined) ?_)
  intro value steps
  have ended : endOfText.Finds ⟨blanks, steps⟩ blanks :=
    ⟨(), steps, endOfText_eq_some_iff.mpr
      ⟨by simp [Token.atEnd, nothing], rfl⟩⟩
  exact ended.bind fun _ steps => ⟨value, steps, rfl⟩

/-- The rest of an assignment is read when its symbol is. -/
theorem assigned_finds
    {reader : Token.Reader Unit}
    {text : List Char}
    (build : Expr → Expr)
    (read : reader text = some ((), word ++ blanks)) :
    Rule.Finds
      (attempt (.staging environment) (do
        token reader
        let value ← completeSum (.staging environment)
          (calculations (.staging environment))
        pure (build value)))
      ⟨text, steps⟩ blanks := by
  refine Rule.Finds.attempt (Rule.Finds.bind (finds_token read) ?_)
  intro _ steps
  refine (completeSum_finds identifiers derived blank).bind ?_
  exact fun value steps => ⟨_, _, rfl⟩

/-- An assignment with an operator is read, or else one of the alternatives in
front of it is. -/
theorem exists_compoundAssignment_finds
    {target : String}
    {operator : Operator}
    {symbolWord : List Char}
    (bound : target ∈ environment.names)
    (symbolWritten : Written operator.compoundSymbol.toList symbolWord) :
    ∃ rest, (compoundAssignment (.staging environment)
        (calculations (.staging environment)) target).Finds
      ⟨symbolWord ++ (word ++ blanks), steps⟩ rest := by
  have reversible := reversible_staging environment
  have known : target ∈ (Scope.staging environment).names :=
    Environment.mem_namesByLength.mpr bound
  have atomic := isAtomic_operatorAssignment reversible
    (proper_calculations reversible) target
  have found : (operatorAssignment (.staging environment)
        (calculations (.staging environment)) target operator).Finds
      ⟨symbolWord ++ (word ++ blanks), steps⟩ blanks :=
    assigned_finds identifiers derived blank _
      (symbolWritten.literal_append operator.visible_compoundSymbol _)
  rw [compoundAssignment, if_pos known]
  exact exists_firstM_finds atomic operator.mem_all found

end

omit identifiers in
/-- An assignment is found when one of its two forms is found behind the
name. -/
theorem assignment_finds
    {target : String}
    {nameWord text rest : List Char}
    (isIdentifier : Token.IsIdentifier target.toList)
    (nameWritten : Written target.toList nameWord)
    (stops : Stops Char.isAlphanum text)
    (found : Rule.Finds
      (plainAssignment (.staging environment)
          (calculations (.staging environment)) target <|>
        compoundAssignment (.staging environment)
          (calculations (.staging environment)) target)
      ⟨text, steps⟩ rest) :
    (assignment (.staging environment) (calculations (.staging environment))).Finds
      ⟨nameWord ++ text, steps⟩ rest := by
  have nameRead : Token.identifier (nameWord ++ text) = some (target, text) :=
    Token.identifier_eq_some_iff.mpr ⟨isIdentifier, stops,
      (nameWritten.skipBlanks_append isIdentifier.visible text).symm⟩
  refine Rule.Finds.attempt (Rule.Finds.of_token nameRead ?_)
  exact found

/-- A statement is read wherever one can be derived. -/
theorem exists_statement_finds
    {text : List Char}
    {phrase : Phrase}
    (derivesText : DerivesText environment.names text phrase)
    (steps : List StagedStep) :
    ∃ rest, (statement (.staging environment)
        (calculations (.staging environment))).Finds ⟨text, steps⟩ rest := by
  have reversible := reversible_staging environment
  have proper := proper_calculations reversible
  obtain ⟨word, blanks, derived, blank, rfl⟩ := derivesText
  cases derived with
  | assignment isIdentifier nameWritten symbolWritten valueDerived =>
      have stops := symbolWritten.stops ⟨'=', rfl, by decide⟩
        ⟨'=', rfl, by decide⟩
      simp only [List.append_assoc]
      refine ⟨blanks, Rule.Finds.orElse
        (assignment_finds isIdentifier nameWritten (stops _) ?_)⟩
      exact (assigned_finds identifiers valueDerived blank _
        (symbolWritten.character_append (by decide) _)).orElse
  | @operatorAssignment target operator _ _ _ _ isIdentifier isBound nameWritten
      symbolWritten valueDerived =>
      have stops := symbolWritten.stops operator.visible_compoundSymbol
        ⟨operator.mark, by cases operator <;> rfl, by cases operator <;> decide⟩
      obtain ⟨rest, compoundFinds⟩ := exists_compoundAssignment_finds
        identifiers valueDerived blank isBound symbolWritten
      obtain ⟨rest, found⟩ :=
        (isAtomic_plainAssignment reversible proper target).exists_orElse_finds
          compoundFinds
      simp only [List.append_assoc]
      exact ⟨rest, (assignment_finds isIdentifier nameWritten (stops _)
        found).orElse⟩
  | calculation sumDerived =>
      exact (isAtomic_assignment reversible proper).exists_orElse_finds
        (completeSum_finds identifiers sumDerived blank)

/-- Every text that derives a phrase is read. -/
theorem isSome_parse?_of_derivesText
    {text : String}
    {phrase : Phrase}
    (derivesText : DerivesText environment.names text.toList phrase) :
    (Statement.parse? text environment).isSome := by
  obtain ⟨rest, value, finish, outcome⟩ :=
    exists_statement_finds identifiers derivesText []
  exact Option.isSome_iff_exists.mpr ⟨⟨value, finish⟩,
    Statement.parse?_eq_some_iff.mpr ⟨rest, outcome⟩⟩

end

end Grammar

namespace Statement

open Grammar (DerivesText)

/-- When the bound names are identifiers, a text is read as a statement exactly
when the grammar derives it, and the statement is the value of a phrase that the
grammar derives from the text. -/
theorem parse?_iff_derivesText
    (text : String)
    (environment : Environment)
    (identifiers : ∀ name ∈ environment.names, Token.IsIdentifier name.toList) :
    ((parse? text environment).isSome ↔
      ∃ phrase, DerivesText environment.names text.toList phrase) ∧
    ∀ statement, parse? text environment = some statement →
      ∃ phrase, DerivesText environment.names text.toList phrase ∧
        phrase.read environment [] = (statement.root, statement.steps) := by
  have sound {statement : Statement}
      (parsed : parse? text environment = some statement) :=
    Grammar.exists_derivesText_of_parse? identifiers parsed
  refine ⟨⟨?_, ?_⟩, fun statement parsed => sound parsed⟩
  · intro isSome
    obtain ⟨statement, parsed⟩ := Option.isSome_iff_exists.mp isSome
    obtain ⟨phrase, derivesText, -⟩ := sound parsed
    exact ⟨phrase, derivesText⟩
  · rintro ⟨phrase, derivesText⟩
    exact Grammar.isSome_parse?_of_derivesText identifiers derivesText

/-- Of the two ways to divide `a+++b` between bound names, the statement is the
value of the one that steps the first name. -/
theorem exists_derivesText_stepAfter_plus :
    let environment : Environment := ⟨[⟨"a", 1.0⟩, ⟨"b", 2.0⟩]⟩
    (∀ name ∈ environment.names, Token.IsIdentifier name.toList) ∧
      ∃ phrase, DerivesText environment.names "a+++b".toList phrase ∧
        phrase.read environment [] =
          (.binary .addition (.postStep "a" .increment) (.var "b"), []) := by
  intro environment
  have identifiers :
      ∀ name ∈ environment.names, Token.IsIdentifier name.toList := by
    decide
  have sorted : environment.namesByLength = ["a", "b"] := by
    change ["a", "b"].mergeSort _ = _
    simp +decide [List.mergeSort]
  have parsed : parse? "a+++b" environment = some
      ⟨.binary .addition (.postStep "a" .increment) (.var "b"), []⟩ := by
    rw [parse?_of_namesByLength sorted]
    decide +kernel
  have language := parse?_iff_derivesText "a+++b" environment identifiers
  exact ⟨identifiers, language.2 _ parsed⟩

end Statement

end LineCalculator
