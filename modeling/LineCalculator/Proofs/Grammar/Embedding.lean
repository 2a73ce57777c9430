import LineCalculator.Proofs.Grammar.Enclosure
import LineCalculator.Proofs.Grammar.Soundness
import LineCalculator.Proofs.Grammar.SpacedStatement
import LineCalculator.Proofs.Grammar.Spacing
import LineCalculator.Proofs.Grammar.TreeShape

/-!
# Calculations as parts of statements

The text of a calculation can stand behind the symbol of an assignment or
between parentheses. It is read there as it is by itself, with the same steps.
Behind the symbol of an operator it is so for a bound target only: with another
target nothing is read, since no calculation has an equals sign in it.
-/

namespace LineCalculator

open Token (Written Stops first?)

namespace Grammar

variable
  {environment : Environment}
  {entries : Entries (List StagedStep)}
  {start finish : State (List StagedStep)}
  {steps : List StagedStep}
  {target : String}
  {text word : List Char}
  {value : Expr}

/-- Writing adds blanks alone, so no equals sign. -/
theorem not_mem_equals_of_written
    {spelling : List Char}
    (written : Written spelling word)
    (noSign : '=' ∉ spelling) :
    '=' ∉ word := by
  obtain ⟨blanks, blank, rfl⟩ := written
  intro member
  rcases List.mem_append.mp member with isBlank | inSpelling
  · exact absurd (blank '=' isBlank) (by decide)
  · exact noSign inSpelling

/-- Only an assignment has an equals sign in it. -/
theorem Derives.not_mem_equals
    {names : List String}
    {category : Category}
    {phrase : Phrase}
    (derived : Derives names category word phrase)
    (notStatement : category ≠ .statement) :
    '=' ∉ word := by
  have noOperator (operator : Operator) : '=' ∉ operator.symbol.toList := by
    cases operator <;> decide
  have noStep (step : Step) : '=' ∉ step.symbol.toList := by
    cases step <;> decide
  induction derived with
  | assignment => exact absurd rfl notStatement
  | operatorAssignment => exact absurd rfl notStatement
  | calculation => exact absurd rfl notStatement
  | oneTerm _ productHypothesis => exact productHypothesis nofun
  | moreTerms _ _ symbolWritten _ leftHypothesis rightHypothesis =>
      simpa using ⟨leftHypothesis nofun,
        not_mem_equals_of_written symbolWritten (noOperator _),
        rightHypothesis nofun⟩
  | oneFactor _ factorHypothesis => exact factorHypothesis nofun
  | moreFactors _ _ symbolWritten _ leftHypothesis rightHypothesis =>
      simpa using ⟨leftHypothesis nofun,
        not_mem_equals_of_written symbolWritten (noOperator _),
        rightHypothesis nofun⟩
  | function _ functionHypothesis => exact functionHypothesis nofun
  | operand _ operandHypothesis => exact operandHypothesis nofun
  | power _ caretWritten _ baseHypothesis exponentHypothesis =>
      simpa using ⟨baseHypothesis nofun,
        not_mem_equals_of_written caretWritten (by decide),
        exponentHypothesis nofun⟩
  | group openWritten _ closeWritten innerHypothesis =>
      simpa using ⟨not_mem_equals_of_written openWritten (by decide),
        innerHypothesis nofun,
        not_mem_equals_of_written closeWritten (by decide)⟩
  | var isIdentifier nameWritten =>
      exact not_mem_equals_of_written nameWritten isIdentifier.not_mem_equals
  | number wellFormed numeralWritten =>
      exact not_mem_equals_of_written numeralWritten wellFormed.not_mem_equals
  | stepBefore isIdentifier _ symbolWritten nameWritten =>
      simpa using ⟨not_mem_equals_of_written symbolWritten (noStep _),
        not_mem_equals_of_written nameWritten isIdentifier.not_mem_equals⟩
  | stepAfter isIdentifier _ nameWritten symbolWritten =>
      simpa using
        ⟨not_mem_equals_of_written nameWritten isIdentifier.not_mem_equals,
          not_mem_equals_of_written symbolWritten (noStep _)⟩
  | @call function _ _ _ _ _ nameWritten openWritten _ closeWritten
      argumentHypothesis =>
      have noName := function.isIdentifier_name.not_mem_equals
      simpa using ⟨not_mem_equals_of_written nameWritten noName,
        not_mem_equals_of_written openWritten (by decide),
        argumentHypothesis nofun,
        not_mem_equals_of_written closeWritten (by decide)⟩

/-- A text with an equals sign is no calculation. -/
theorem completeSum_misses_of_mem
    (identifiers : ∀ name ∈ environment.names, Token.IsIdentifier name.toList)
    (sign : '=' ∈ start.rest) :
    (completeSum (.staging environment) (stagedEntries environment)).Misses
      start := by
  intro value finish outcome
  obtain ⟨⟨word, phrase, split, derived, -⟩, atEnd⟩ :=
    readBetween_completeSum (sound_calculations identifiers) outcome
  rw [← split] at sign
  rcases List.mem_append.mp sign with inWord | behind
  · exact derived.not_mem_equals nofun inWord
  · have blank : ∀ character ∈ finish.rest, isBlank character = true := by
      simpa [Token.atEnd, skipBlanks] using atEnd
    exact absurd (blank '=' behind) (by decide)

/-! ## Assignments -/

/-- Behind its target an assignment goes on with one of its two symbols. -/
theorem assignment_leadsTo
    (isIdentifier : Token.IsIdentifier target.toList)
    (stops : Stops Char.isAlphanum text) :
    Rule.LeadsTo (do
        let target ← token Token.identifier
        plainAssignment (.staging environment) entries target <|>
          compoundAssignment (.staging environment) entries target)
      (target.toList ++ text)
      (plainAssignment (.staging environment) entries target <|>
        compoundAssignment (.staging environment) entries target) text := by
  have nameWritten := Token.written_self target.toList
  have nameRead : Token.identifier (target.toList ++ text) =
      some (target, text) :=
    Token.identifier_eq_some_iff.mpr ⟨isIdentifier, stops,
      (nameWritten.skipBlanks_append isIdentifier.visible text).symm⟩
  exact (reads_token nameRead).bind

/-- Behind the symbol of an assignment a calculation is the value. -/
theorem run_assigned
    {reader : Token.Reader Unit}
    {rest : List Char}
    (build : Expr → Expr)
    (symbolRead : reader text = some ((), rest))
    (valueRead : (completeSum (.staging environment) entries).run
      ⟨rest, steps⟩ = (some value, finish)) :
    (attempt (.staging environment) (do
      token reader
      let value ← completeSum (.staging environment) entries
      pure (build value))).run ⟨text, steps⟩ = (some (build value), finish) := by
  refine attempt_eq_some_iff.mpr (bind_eq_some_iff.mpr
    ⟨(), ⟨rest, steps⟩, token_eq_some_iff.mpr ⟨symbolRead, rfl⟩, ?_⟩)
  exact bind_eq_some_iff.mpr ⟨value, finish, valueRead, rfl⟩

section

variable
  {operator : Operator}
  {symbolWord : List Char}
  (symbolWritten : Written operator.compoundSymbol.toList symbolWord)
include symbolWritten

/-- A compound symbol shows the mark of its operator first. -/
theorem first?_compound (text : List Char) :
    first? (symbolWord ++ text) = some operator.mark := by
  rw [symbolWritten.first?_append operator.visible_compoundSymbol,
    operator.compoundSymbol_toList]
  rfl

theorem stops_compound (text : List Char) :
    Stops Char.isAlphanum (symbolWord ++ text) :=
  symbolWritten.stops operator.visible_compoundSymbol
    ⟨operator.mark, by simp [operator.compoundSymbol_toList],
      by cases operator <;> decide⟩ text

/-- The symbol of an operator is not that of an assignment without one. -/
theorem plainAssignment_misses_of_compound :
    (plainAssignment (.staging environment) entries target).Misses
      ⟨symbolWord ++ text, steps⟩ := by
  refine (misses_token (Token.character_eq_none ?_)).bind.attempt
  rw [first?_compound symbolWritten]
  cases operator <;> decide

end

section

variable
  (proper : Satisfy entries (Proper (Appends environment.names)))
  (isIdentifier : Token.IsIdentifier target.toList)
include proper isIdentifier

omit proper in
/-- A name, an equals sign and a value are an assignment of the value. -/
theorem run_statement_plain
    {symbolWord : List Char}
    (symbolWritten : Written ['='] symbolWord)
    (valueRead : (completeSum (.staging environment) entries).run
      ⟨text, steps⟩ = (some value, finish)) :
    (statement (.staging environment) entries).run
      ⟨target.toList ++ (symbolWord ++ text), steps⟩ =
        (some (.assignment target value), finish) := by
  have stops := symbolWritten.stops ⟨'=', rfl, by decide⟩ ⟨'=', rfl, by decide⟩
    text
  have plainRead := run_assigned (.assignment target)
    (symbolWritten.character_append (by decide) text) valueRead
  refine Rule.orElse_eq_some_of_first (attempt_eq_some_iff.mpr ?_)
  rw [assignment_leadsTo isIdentifier stops]
  exact Rule.orElse_eq_some_of_first plainRead

/-- With a bound target the symbol of an operator is the only one that is
found. -/
theorem run_statement_compound
    {operator : Operator}
    {symbolWord : List Char}
    (bound : target ∈ environment.names)
    (symbolWritten : Written operator.compoundSymbol.toList symbolWord)
    (valueRead : (completeSum (.staging environment) entries).run
      ⟨text, steps⟩ = (some value, finish)) :
    (statement (.staging environment) entries).run
      ⟨target.toList ++ (symbolWord ++ text), steps⟩ =
        (some (.assignment target (.binary operator (.var target) value)),
          finish) := by
  have reversible := reversible_staging environment
  have known : target ∈ (Scope.staging environment).names :=
    Environment.mem_namesByLength.mpr bound
  have othersMiss : ∀ other, other ≠ operator →
      (operatorAssignment (.staging environment) entries target other).Misses
        ⟨symbolWord ++ text, steps⟩ := by
    intro other different
    refine (misses_token (Token.literal_eq_none ?_)).bind.attempt
    rw [first?_compound symbolWritten, other.compoundSymbol_toList]
    exact fun same => different
      (Operator.mark_injective (Option.some.inj same)).symm
  have compoundRead := run_assigned
    (fun value => .assignment target (.binary operator (.var target) value))
    (symbolWritten.literal_append operator.visible_compoundSymbol text) valueRead
  refine Rule.orElse_eq_some_of_first (attempt_eq_some_iff.mpr ?_)
  rw [assignment_leadsTo isIdentifier (stops_compound symbolWritten text)]
  refine (isAtomic_plainAssignment reversible proper target).orElse_eq_some_iff.mpr
    (.inr ⟨plainAssignment_misses_of_compound symbolWritten, ?_⟩)
  rw [compoundAssignment, if_pos known]
  exact firstM_eq_some (isAtomic_operatorAssignment reversible proper target)
    operator.mem_all othersMiss compoundRead

end

/-- With a target that is not bound the symbol of an operator is not found. The
whole text is then tried as a calculation, which its equals sign keeps it from
being. -/
theorem statement_misses_of_unbound
    (identifiers : ∀ name ∈ environment.names, Token.IsIdentifier name.toList)
    (isIdentifier : Token.IsIdentifier target.toList)
    (unbound : target ∉ environment.names)
    {operator : Operator}
    {symbolWord : List Char}
    (symbolWritten : Written operator.compoundSymbol.toList symbolWord) :
    (statement (.staging environment) (stagedEntries environment)).Misses
      ⟨target.toList ++ (symbolWord ++ text), steps⟩ := by
  have reversible := reversible_staging environment
  have proper := proper_calculations reversible
  have unknown : target ∉ (Scope.staging environment).names :=
    fun known => unbound (Environment.mem_namesByLength.mp known)
  have noCompound : (compoundAssignment (.staging environment)
      (stagedEntries environment) target).Misses ⟨symbolWord ++ text, steps⟩ := by
    rw [compoundAssignment, if_neg unknown]
    intro value finish outcome
    simp at outcome
  have stops := stops_compound symbolWritten text
  have sign : '=' ∈ target.toList ++ (symbolWord ++ text) := by
    obtain ⟨blanks, -, rfl⟩ := symbolWritten
    simp [operator.compoundSymbol_toList]
  refine (isAtomic_assignment reversible proper).orElse_misses
    (Rule.Misses.attempt ((assignment_leadsTo isIdentifier stops).misses ?_))
    (completeSum_misses_of_mem identifiers sign)
  exact (isAtomic_plainAssignment reversible proper target).orElse_misses
    (plainAssignment_misses_of_compound symbolWritten) noCompound

section

variable
  (identifiers : ∀ name ∈ environment.names, Token.IsIdentifier name.toList)
include identifiers

/-- A calculation between parentheses is a group. -/
theorem run_group_of_completeSum
    {openWord : List Char}
    (openWritten : Written ['('] openWord)
    (outcome : (completeSum (.staging environment)
      (stagedEntries environment)).run ⟨text, steps⟩ = (some value, finish)) :
    (group (.staging environment) (stagedEntries environment)).run
      ⟨openWord ++ (text ++ [')']), steps⟩ =
        (some value, ⟨[], finish.steps⟩) := by
  obtain ⟨sum, middle, sumRead, outcome⟩ :=
    bind_eq_some_iff.mp (attempt_eq_some_iff.mp outcome)
  obtain ⟨_, last, ended, built⟩ := bind_eq_some_iff.mp outcome
  obtain ⟨atEnd, rfl⟩ := endOfText_eq_some_iff.mp ended
  simp only [Rule.run_pure, Prod.mk.injEq, Option.some.injEq] at built
  obtain ⟨rfl, rfl⟩ := built
  have nothing : skipBlanks last.rest = [] := by
    simpa [Token.atEnd] using atEnd
  have closeRead : Token.character ')' (last.rest ++ [')']) = some ((), []) := by
    rw [Token.character_eq_some_iff, Token.skipBlanks_append_close, nothing]
    rfl
  refine attempt_eq_some_iff.mpr (bind_eq_some_iff.mpr
    ⟨(), ⟨text ++ [')'], steps⟩, ?_, bind_eq_some_iff.mpr
      ⟨sum, _, run_sum_enclosed identifiers sumRead atEnd [], ?_⟩⟩)
  · exact token_eq_some_iff.mpr
      ⟨openWritten.character_append (by decide) _, rfl⟩
  · exact bind_eq_some_iff.mpr
      ⟨(), ⟨[], last.steps⟩, token_eq_some_iff.mpr ⟨closeRead, rfl⟩, rfl⟩

/-- A group that ends the text is a factor. -/
theorem run_factor_of_group
    {after : List StagedStep}
    (isOpen : first? text = some '(')
    (outcome : (group (.staging environment) (stagedEntries environment)).run
      ⟨text, steps⟩ = (some value, ⟨[], after⟩)) :
    (stagedFactor environment).run ⟨text, steps⟩ =
      (some value, ⟨[], after⟩) := by
  have reversible := reversible_staging environment
  have proper := proper_calculations reversible
  have powerMisses : (power (.staging environment) (stagedEntries environment)
      value).Misses ⟨[], after⟩ :=
    power_misses (by simp [first?])
  refine (isAtomic_function reversible proper).orElse_eq_some_iff.mpr (.inr
    ⟨function_misses_of_first identifiers ⟨'(', isOpen, .inl rfl⟩, ?_⟩)
  refine bind_eq_some_iff.mpr
    ⟨value, _, Rule.orElse_eq_some_of_first outcome, ?_⟩
  exact (isAtomic_power reversible proper value).orElse_eq_some_iff.mpr
    (.inr ⟨powerMisses, rfl⟩)

end

theorem operatorSymbol_nil (operators : List Operator) :
    Token.anyOf Operator.symbol operators [] = none := by
  apply Token.anyOf_eq_none
  intro operator _
  simp [first?, operator.symbol_toList]

/-- An operand that ends the text is a whole round. -/
theorem Round.run_whole_of_operand
    {after : List StagedStep}
    (round : Round)
    (outcome : (round.operand environment).run start =
      (some value, ⟨[], after⟩)) :
    (round.whole environment).run start = (some value, ⟨[], after⟩) := by
  rw [round.whole_eq]
  refine attempt_eq_some_iff.mpr (bind_eq_some_iff.mpr ⟨value, _, outcome, ?_⟩)
  rw [Function.comp_apply, stagedEntries_round]
  exact run_more_of_none (operatorSymbol_nil _)

/-- A factor that ends the text is an operand of either round. -/
theorem Round.run_operand_of_factor
    {after : List StagedStep}
    (round : Round)
    (outcome : (stagedFactor environment).run start =
      (some value, ⟨[], after⟩)) :
    (round.operand environment).run start = (some value, ⟨[], after⟩) := by
  cases round with
  | factors => exact outcome
  | terms => exact Round.factors.run_whole_of_operand outcome

/-- A factor that ends the text is a sum. -/
theorem run_sum_of_factor
    {after : List StagedStep}
    (outcome : (stagedFactor environment).run start =
      (some value, ⟨[], after⟩)) :
    (stagedEntries environment .sum).run start = (some value, ⟨[], after⟩) :=
  Round.terms.run_whole_of_operand (Round.terms.run_operand_of_factor outcome)

/-- A sum that ends the text is a calculation. -/
theorem run_completeSum_of_sum
    {after : List StagedStep}
    (outcome : (stagedEntries environment .sum).run start =
      (some value, ⟨[], after⟩)) :
    (completeSum (.staging environment) (stagedEntries environment)).run start =
      (some value, ⟨[], after⟩) :=
  attempt_eq_some_iff.mpr (bind_eq_some_iff.mpr
    ⟨value, _, outcome, bind_eq_some_iff.mpr
      ⟨(), _, endOfText_eq_some_iff.mpr ⟨rfl, rfl⟩, rfl⟩⟩)

/-- A round ends with an operand that ends the text. -/
theorem Round.run_entry_of_last
    {operator : Operator}
    {after : List StagedStep}
    (round : Round)
    (member : operator ∈ round.operators)
    (operandRead : (round.operand environment).run ⟨' ' :: text, steps⟩ =
      (some value, ⟨[], after⟩))
    (left : Expr) :
    (stagedEntries environment (round.entry left)).run
        ⟨operator.between ++ text, steps⟩ =
      (some (.binary operator left value), ⟨[], after⟩) := by
  rw [stagedEntries_round,
    run_more_of_some (operatorSymbol_between member text)]
  refine bind_eq_some_iff.mpr ⟨value, _, operandRead, ?_⟩
  rw [Function.comp_apply, stagedEntries_round]
  exact run_more_of_none (operatorSymbol_nil _)

section

variable
  {operator : Operator}
  {name : String}
  {nameWord : List Char}
  {after : List StagedStep}
  (identifiers : ∀ name ∈ environment.names, Token.IsIdentifier name.toList)
  (isIdentifier : Token.IsIdentifier name.toList)
  (nameWritten : Written name.toList nameWord)
  (factorRead : (stagedFactor environment).run ⟨' ' :: text, steps⟩ =
    (some value, ⟨[], after⟩))
include identifiers isIdentifier nameWritten factorRead

/-- Behind the name of a variable and an operator of a round the last factor is
the right operand. -/
theorem Round.run_whole_of_operation
    (round : Round)
    (member : operator ∈ round.operators) :
    (round.whole environment).run
      ⟨nameWord ++ (operator.between ++ text), steps⟩ =
        (some (.binary operator (.var name) value), ⟨[], after⟩) := by
  have nameReads :=
    (readsSpaced_var identifiers isIdentifier).factor_of_operand.operand round
  have leftRead := nameReads.operand_reads round nameWritten
    (setOff_between (List.mem_append_right _ member) text) steps
  rw [round.whole_eq]
  refine attempt_eq_some_iff.mpr (bind_eq_some_iff.mpr ⟨_, _, leftRead, ?_⟩)
  exact round.run_entry_of_last member (round.run_operand_of_factor factorRead)
    (.var name)

/-- A name raised to a value is a factor that takes up the whole text. -/
theorem run_factor_of_power :
    (stagedFactor environment).run
      ⟨nameWord ++ (Operator.exponentiation.between ++ text), steps⟩ =
        (some (.binary .exponentiation (.var name) value), ⟨[], after⟩) := by
  obtain ⟨functionMisses, operandReads⟩ :=
    readsSpaced_var identifiers isIdentifier nameWord _ nameWritten
      (setOff_between (Operator.mem_all .exponentiation) text)
  have caretRead : Token.character '^'
      (Operator.exponentiation.between ++ text) = some ((), ' ' :: text) :=
    Token.character_eq_some_iff.mpr (skipBlanks_between .exponentiation text).symm
  rw [factor_leadsTo_power functionMisses operandReads]
  refine Rule.orElse_eq_some_of_first (attempt_eq_some_iff.mpr
    (bind_eq_some_iff.mpr ⟨(), ⟨' ' :: text, steps⟩,
      token_eq_some_iff.mpr ⟨caretRead, rfl⟩, ?_⟩))
  rw [stagedEntries_factor]
  exact bind_eq_some_iff.mpr ⟨value, _, factorRead, rfl⟩

/-- Behind the name of a variable and an operator the last factor is the right
operand. -/
theorem run_sum_of_operation (operator : Operator) :
    (stagedEntries environment .sum).run
      ⟨nameWord ++ (operator.between ++ text), steps⟩ =
        (some (.binary operator (.var name) value), ⟨[], after⟩) := by
  cases operator with
  | addition | subtraction =>
      exact Round.terms.run_whole_of_operation identifiers isIdentifier
        nameWritten factorRead (by decide)
  | multiplication | division | modulus =>
      exact Round.terms.run_whole_of_operand
        (Round.factors.run_whole_of_operation identifiers isIdentifier
          nameWritten factorRead (by decide))
  | exponentiation =>
      exact run_sum_of_factor (run_factor_of_power identifiers isIdentifier
        nameWritten factorRead)

end

end Grammar

/-! ## Texts of statements -/

namespace Statement

open Grammar

variable
  {environment : Environment}
  {text gap : String}
  {root : Expr}
  {steps : List StagedStep}
  {name : String}

/-- A statement that is no assignment is a calculation that takes the whole
text. -/
theorem exists_run_completeSum_of_parse?
    (parsed : parse? text environment = some ⟨root, steps⟩)
    (calculation : ∀ target value, root ≠ .assignment target value) :
    ∃ rest, (completeSum (.staging environment) (stagedEntries environment)).run
      ⟨text.toList, []⟩ = (some root, ⟨rest, steps⟩) := by
  have reversible := reversible_staging environment
  have atomic := isAtomic_assignment reversible (proper_calculations reversible)
  obtain ⟨rest, outcome⟩ := parse?_eq_some_iff.mp parsed
  refine ⟨rest, ?_⟩
  rcases atomic.orElse_eq_some outcome with assigned | calculated
  · obtain ⟨⟨target, value, isAssignment⟩, -⟩ :=
      yields_assignment shaped_calculations root ⟨_, _, assigned⟩
    exact absurd isAssignment (calculation target value)
  · exact calculated

/-- Blanks in front of a text do not change what it says. -/
theorem parse?_behind_blanks
    (identifiers : ∀ name ∈ environment.names, Token.IsIdentifier name.toList)
    (blank : ∀ character ∈ gap.toList, isBlank character = true) :
    parse? (gap ++ text) environment = parse? text environment := by
  apply parse?_eq_of_chunks_eq
  · intro name bound character member
    exact isBlank_eq_false_of_isAlphanum
      ((identifiers name bound).isAlphanum member)
  · rw [String.toList_append, chunks, runs_append_of_others fun character member =>
      isInk_eq_false.mpr (blank character member)]
    rfl

section

variable
  (identifiers : ∀ name ∈ environment.names, Token.IsIdentifier name.toList)
  (parsed : parse? text environment = some ⟨root, steps⟩)
  (calculation : ∀ target value, root ≠ .assignment target value)
  (isIdentifier : Token.IsIdentifier name.toList)
  (blank : ∀ character ∈ gap.toList, isBlank character = true)

include parsed calculation isIdentifier blank in
/-- A name and an equals sign in front of a calculation assign its value. -/
theorem parse?_assignment :
    parse? (name ++ gap ++ "=" ++ text) environment =
      some ⟨.assignment name root, steps⟩ := by
  obtain ⟨rest, outcome⟩ :=
    exists_run_completeSum_of_parse? parsed calculation
  have symbolWritten : Token.Written ['='] (gap.toList ++ ['=']) :=
    ⟨gap.toList, blank, rfl⟩
  have assigned := run_statement_plain isIdentifier symbolWritten outcome
  exact parse?_eq_some_iff.mpr ⟨rest, by simpa using assigned⟩

include parsed calculation isIdentifier blank in
/-- A bound name and a compound symbol in front of a calculation assign what
the operator yields. -/
theorem parse?_compoundAssignment
    (bound : name ∈ environment.names)
    (operator : Operator) :
    parse? (name ++ gap ++ operator.compoundSymbol ++ text) environment =
      some ⟨.assignment name (.binary operator (.var name) root), steps⟩ := by
  have proper := proper_calculations (reversible_staging environment)
  obtain ⟨rest, outcome⟩ :=
    exists_run_completeSum_of_parse? parsed calculation
  have symbolWritten : Token.Written operator.compoundSymbol.toList
      (gap.toList ++ operator.compoundSymbol.toList) :=
    ⟨gap.toList, blank, rfl⟩
  have assigned := run_statement_compound proper isIdentifier bound
    symbolWritten outcome
  exact parse?_eq_some_iff.mpr ⟨rest, by simpa using assigned⟩

include identifiers isIdentifier blank in
/-- Behind an unbound name a compound symbol makes no statement. -/
theorem parse?_compoundAssignment_of_unbound
    (unbound : name ∉ environment.names)
    (operator : Operator) :
    parse? (name ++ gap ++ operator.compoundSymbol ++ text) environment =
      none := by
  have symbolWritten : Token.Written operator.compoundSymbol.toList
      (gap.toList ++ operator.compoundSymbol.toList) :=
    ⟨gap.toList, blank, rfl⟩
  have misses : (Grammar.statement (.staging environment)
      (stagedEntries environment)).Misses
        ⟨name.toList ++ (gap.toList ++ operator.compoundSymbol.toList ++
          text.toList), []⟩ :=
    statement_misses_of_unbound identifiers isIdentifier unbound symbolWritten
  exact parse?_of_misses (by simpa using misses)

include identifiers parsed calculation

/-- A calculation between parentheses is read as what it is without them. -/
theorem parse?_group :
    parse? ("(" ++ text ++ ")") environment = some ⟨root, steps⟩ := by
  have reversible := reversible_staging environment
  have proper := proper_calculations reversible
  obtain ⟨rest, outcome⟩ :=
    exists_run_completeSum_of_parse? parsed calculation
  have grouped := run_group_of_completeSum identifiers
    (Token.written_self ['(']) outcome
  have isOpen : Token.first? (['('] ++ (text.toList ++ [')'])) = some '(' := rfl
  have summed := run_sum_of_factor
    (run_factor_of_group identifiers isOpen grouped)
  have noName : Token.identifier (['('] ++ (text.toList ++ [')'])) = none :=
    Token.identifier_eq_none (by rw [isOpen]; rintro _ ⟨⟩; decide)
  refine parse?_eq_some_iff.mpr ⟨[], ?_⟩
  refine (isAtomic_assignment reversible proper).orElse_eq_some_iff.mpr
    (.inr ⟨?_, ?_⟩)
  · exact (misses_token (by simpa using noName)).bind.attempt
  · simpa using run_completeSum_of_sum summed

include isIdentifier

/-- Where the symbol of an operator assigns a calculation, the operation can be
written out with the calculation between parentheses. -/
theorem parse?_assignment_of_operation (operator : Operator) :
    parse? (name ++ " = " ++ name ++ " " ++ operator.symbol ++ " (" ++ text ++
        ")") environment =
      some ⟨.assignment name (.binary operator (.var name) root), steps⟩ := by
  obtain ⟨rest, outcome⟩ :=
    exists_run_completeSum_of_parse? parsed calculation
  have grouped := run_group_of_completeSum identifiers
    (Token.written_behind_space ['(']) outcome
  have factorRead := run_factor_of_group identifiers rfl grouped
  have summed := run_sum_of_operation identifiers isIdentifier
    (Token.written_behind_space name.toList) factorRead operator
  have assigned := run_statement_plain isIdentifier
    (Token.written_behind_space ['=']) (run_completeSum_of_sum summed)
  refine parse?_eq_some_iff.mpr ⟨[], ?_⟩
  simpa [Operator.between, operator.symbol_toList] using assigned

end

end Statement

end LineCalculator
