import LineCalculator.Proofs.Grammar.SpacedReading

/-!
# Statements in spaced texts

Without an equals sign there is no assignment, so a statement whose text is that
of a spaced sum is read as the tree of the sum. With a target and an equals sign
in front of it the text is read as an assignment of that tree.
-/

namespace LineCalculator

open Token (Written first? Stops)

theorem Token.IsIdentifier.not_mem_equals
    {name : List Char}
    (isIdentifier : Token.IsIdentifier name) :
    '=' ∉ name :=
  fun member => absurd (isIdentifier.isAlphanum member) (by decide)

/-- The characters of numerals are digits, the point and those of exponents. -/
theorem Numeral.WellFormed.not_mem
    {numeral : Numeral}
    {character : Char}
    (wellFormed : numeral.WellFormed)
    (noDigit : ¬ character.isDigit = true)
    (other : character ∉ ['.', 'e', 'E', '+', '-']) :
    character ∉ numeral.characters := by
  obtain ⟨whole, fraction, exponent⟩ := numeral
  obtain ⟨-, wholeDigits, fractionDigits, exponentWellFormed⟩ := wellFormed
  simp only [List.mem_cons, List.not_mem_nil, or_false, not_or] at other
  obtain ⟨notPoint, notSmall, notLarge, notPlus, notMinus⟩ := other
  simp only [characters, List.mem_append, not_or]
  refine ⟨⟨fun member => noDigit (wholeDigits _ member), ?_⟩, ?_⟩
  · cases fraction with
    | none => simp [fractionCharacters]
    | some digits =>
        have noPlace := fun member =>
          noDigit (fractionDigits digits rfl _ member)
        simpa [fractionCharacters, notPoint] using noPlace
  · cases exponent with
    | none => simp
    | some exponent =>
        obtain ⟨mark, sign, digits⟩ := exponent
        obtain ⟨isMark, -, exponentDigits⟩ := exponentWellFormed _ rfl
        have noExponent := fun member => noDigit (exponentDigits _ member)
        have notMark : character ≠ mark := by
          rcases isMark with rfl | rfl
          · exact notSmall
          · exact notLarge
        cases sign <;>
          simpa [Exponent.characters, ExponentSign.characters, notMark, notPlus,
            notMinus] using noExponent

theorem Numeral.WellFormed.not_mem_equals
    {numeral : Numeral}
    (wellFormed : numeral.WellFormed) :
    '=' ∉ numeral.characters :=
  wellFormed.not_mem (by decide) (by decide)

theorem Operator.not_mem_between (operator : Operator) :
    '=' ∉ operator.between := by
  cases operator <;> decide

namespace Grammar

/-- No calculation has an equals sign in it. -/
theorem Spaced.not_mem_equals
    {names : List String}
    {category : Category}
    {text : List Char}
    {tree : Expr}
    (identifiers : ∀ name ∈ names, Token.IsIdentifier name.toList)
    (spaced : Spaced names category text tree) :
    '=' ∉ text := by
  induction spaced with
  | number wellFormed => exact wellFormed.not_mem_equals
  | var isIdentifier => exact isIdentifier.not_mem_equals
  | group _ innerHypothesis => simpa using innerHypothesis
  | stepAfter bound step =>
      have noName := (identifiers _ bound).not_mem_equals
      cases step <;> simpa [Step.symbol] using noName
  | call function _ argumentHypothesis =>
      have noName := function.isIdentifier_name.not_mem_equals
      simpa using ⟨noName, argumentHypothesis⟩
  | function _ textHypothesis => exact textHypothesis
  | operand _ textHypothesis => exact textHypothesis
  | power _ _ leftHypothesis rightHypothesis =>
      simpa using ⟨leftHypothesis, Operator.not_mem_between _, rightHypothesis⟩
  | oneFactor _ textHypothesis => exact textHypothesis
  | moreFactors _ _ _ leftHypothesis rightHypothesis =>
      simpa using ⟨leftHypothesis, Operator.not_mem_between _, rightHypothesis⟩
  | oneTerm _ textHypothesis => exact textHypothesis
  | moreTerms _ _ _ leftHypothesis rightHypothesis =>
      simpa using ⟨leftHypothesis, Operator.not_mem_between _, rightHypothesis⟩

variable
  {environment : Environment}
  {entries : Entries (List StagedStep)}
  {steps : List StagedStep}
  {target : String}
  {text word : List Char}
  {tree : Expr}

theorem written_equals : Written ['='] [' ', '='] :=
  Token.written_behind_space ['=']

theorem first?_equals (text : List Char) :
    first? ([' ', '='] ++ text) = some '=' :=
  written_equals.first?_append ⟨'=', rfl, by decide⟩ text

theorem stops_equals (text : List Char) :
    Stops Char.isAlphanum ([' ', '='] ++ text) :=
  written_equals.stops ⟨'=', rfl, by decide⟩ ⟨'=', rfl, by decide⟩ text

/-- A target is read up to the blank in front of its equals sign. -/
theorem identifier_target
    (isIdentifier : Token.IsIdentifier target.toList)
    (text : List Char) :
    Token.identifier (target.toList ++ ([' ', '='] ++ text)) =
      some (target, [' ', '='] ++ text) := by
  have nameWritten := Token.written_self target.toList
  exact Token.identifier_eq_some_iff.mpr ⟨isIdentifier, stops_equals text,
    (nameWritten.skipBlanks_append isIdentifier.visible _).symm⟩

section

variable (proper : Satisfy entries (Proper (Appends environment.names)))
include proper

/-- No assignment with an operator is found where no compound symbol stands. -/
theorem compoundAssignment_misses
    (noSymbol : ∀ operator : Operator,
      Token.literal operator.compoundSymbol text = none) :
    (compoundAssignment (.staging environment) entries target).Misses
      ⟨text, steps⟩ := by
  have atomic := isAtomic_operatorAssignment (reversible_staging environment)
    proper target
  intro value finish outcome
  unfold compoundAssignment at outcome
  split at outcome
  · obtain ⟨operator, -, found⟩ := mem_of_firstM_eq_some atomic outcome
    exact (misses_token (noSymbol operator)).bind.attempt value finish found
  · simp at outcome

/-- There is no assignment where neither kind goes on behind the name. -/
theorem assignment_misses
    (plainMisses : ∀ target rest,
      Token.identifier text = some (target, rest) →
      ∀ steps, (plainAssignment (.staging environment) entries target).Misses
        ⟨rest, steps⟩)
    (noSymbol : ∀ target rest, Token.identifier text = some (target, rest) →
      ∀ operator : Operator,
        Token.literal operator.compoundSymbol rest = none) :
    (assignment (.staging environment) entries).Misses ⟨text, steps⟩ := by
  refine (misses_bind ?_).attempt
  intro target middle nameRead
  obtain ⟨read, -⟩ := token_eq_some_iff.mp nameRead
  have atomic :=
    isAtomic_plainAssignment (reversible_staging environment) proper target
  exact atomic.orElse_misses (plainMisses target _ read _)
    (compoundAssignment_misses proper (noSymbol target _ read))

/-- Without an equals sign there is no assignment. -/
theorem assignment_misses_of_not_mem (noSign : '=' ∉ text) :
    (assignment (.staging environment) entries).Misses ⟨text, steps⟩ := by
  have noSignBehind : ∀ target rest,
      Token.identifier text = some (target, rest) → '=' ∉ skipBlanks rest := by
    intro target rest read member
    have suffix := (Token.consumes_identifier _ _ _ read).suffix
    exact noSign (((skipBlanks_suffix rest).trans suffix).subset member)
  refine assignment_misses proper ?_ ?_
  · intro target rest read steps
    have notFirst : first? rest ≠ some '=' := fun isFirst =>
      noSignBehind target rest read (List.mem_of_mem_head? isFirst)
    exact (misses_token (Token.character_eq_none notFirst)).bind.attempt
  · intro target rest read operator
    rcases found : Token.literal operator.compoundSymbol rest with
      _ | ⟨_, after⟩
    · rfl
    · have split := (Token.literal_eq_some_iff.mp found).2
      refine absurd ?_ (noSignBehind target rest read)
      rw [← split]
      cases operator <;> simp [Operator.compoundSymbol]

/-- There is no assignment where no value stands behind the equals sign. -/
theorem assignment_misses_of_value
    (isIdentifier : Token.IsIdentifier target.toList)
    (valueMisses : ∀ steps, (completeSum (.staging environment) entries).Misses
      ⟨text, steps⟩) :
    (assignment (.staging environment) entries).Misses
      ⟨target.toList ++ ([' ', '='] ++ text), steps⟩ := by
  have nameRead := identifier_target isIdentifier text
  have symbolRead := reads_token (σ := List StagedStep)
    (written_equals.character_append (by decide) text)
  refine assignment_misses proper ?_ ?_
  · intro target rest read steps
    rw [nameRead] at read
    obtain ⟨rfl, rfl⟩ := Prod.mk.inj (Option.some.inj read)
    exact (symbolRead.bind.misses (valueMisses steps).bind).attempt
  · intro target rest read operator
    rw [nameRead] at read
    obtain ⟨rfl, rfl⟩ := Prod.mk.inj (Option.some.inj read)
    apply Token.literal_eq_none
    rw [first?_equals]
    cases operator <;> decide

end

/-- A sum at the end of the text is read whole. -/
theorem ReadsSpaced.completeSum_reads
    (reads : ReadsSpaced environment .sum text tree)
    (written : Written text word) :
    (completeSum (.staging environment) (stagedEntries environment)).Reads
      word tree [] := by
  have closes : Closes [] := by simp [Closes, first?]
  have sumReads := reads.sum_reads written closes
  have ended : Rule.Reads (σ := List StagedStep) endOfText [] () [] :=
    fun steps => endOfText_eq_some_iff.mpr ⟨rfl, rfl⟩
  rw [List.append_nil] at sumReads
  exact Rule.Reads.attempt (sumReads.bind.trans ended.bind)

section

variable
  (identifiers : ∀ name ∈ environment.names, Token.IsIdentifier name.toList)
  (spaced : Spaced environment.names .sum text tree)
include identifiers spaced

/-- A spaced text without an equals sign is read as a calculation. -/
theorem Spaced.statement_reads :
    (statement (.staging environment) (stagedEntries environment)).Reads
      text tree [] := by
  have reversible := reversible_staging environment
  have proper := proper_calculations reversible
  have noSign := spaced.not_mem_equals identifiers
  have sumReads :=
    (spaced.reads identifiers).completeSum_reads (Token.written_self text)
  exact ((isAtomic_assignment reversible proper).orElse_leadsTo
    fun _ => assignment_misses_of_not_mem proper noSign).trans sumReads

/-- A target in front of a spaced text is read as an assignment. -/
theorem Spaced.statement_reads_assignment
    (isIdentifier : Token.IsIdentifier target.toList) :
    (statement (.staging environment) (stagedEntries environment)).Reads
      (target.toList ++ ([' ', '='] ++ (' ' :: text)))
      (.assignment target tree) [] := by
  have textWritten := Token.written_behind_space text
  have nameRead := reads_token (σ := List StagedStep)
    (identifier_target isIdentifier (' ' :: text))
  have symbolRead := reads_token (σ := List StagedStep)
    (written_equals.character_append (by decide) (' ' :: text))
  have sumReads := (spaced.reads identifiers).completeSum_reads textWritten
  have plainReads : (plainAssignment (.staging environment)
      (stagedEntries environment) target).Reads
        ([' ', '='] ++ (' ' :: text)) (.assignment target tree) [] :=
    Rule.Reads.attempt (symbolRead.bind.trans sumReads.bind)
  have assignmentReads : (assignment (.staging environment)
      (stagedEntries environment)).Reads
        (target.toList ++ ([' ', '='] ++ (' ' :: text)))
        (.assignment target tree) [] :=
    Rule.Reads.attempt (nameRead.bind.trans plainReads.orElse)
  exact assignmentReads.orElse

end

end Grammar

namespace Statement

open Grammar (Spaced)

variable
  {environment : Environment}
  {text : String}
  {tree : Expr}

/-- A text that is read to its end is parsed, and nothing is staged. -/
theorem parse?_of_reads
    (reads : (Grammar.statement (.staging environment)
      (Grammar.stagedEntries environment)).Reads text.toList tree []) :
    parse? text environment = some ⟨tree, []⟩ := by
  have outcome := reads []
  simp only [Grammar.Rule.run_pure] at outcome
  exact parse?_eq_some_iff.mpr ⟨[], outcome⟩

/-- A text that is missed is not parsed. -/
theorem parse?_of_misses
    (misses : (Grammar.statement (.staging environment)
      (Grammar.stagedEntries environment)).Misses ⟨text.toList, []⟩) :
    parse? text environment = none := by
  rw [Option.eq_none_iff_forall_ne_some]
  intro statement parsed
  obtain ⟨rest, outcome⟩ := parse?_eq_some_iff.mp parsed
  exact misses statement.root ⟨rest, statement.steps⟩ outcome

section

variable
  (identifiers : ∀ name ∈ environment.names, Token.IsIdentifier name.toList)
  (spaced : Spaced environment.names .sum text.toList tree)
include identifiers spaced

/-- The text of a spaced sum is read as the tree that it spells. -/
theorem parse?_of_spaced : parse? text environment = some ⟨tree, []⟩ :=
  parse?_of_reads (spaced.statement_reads identifiers)

/-- A target, an equals sign and the text of a spaced sum are read as an
assignment. -/
theorem parse?_of_spaced_assignment
    {target : String}
    (isIdentifier : Token.IsIdentifier target.toList) :
    parse? (target ++ " = " ++ text) environment =
      some ⟨.assignment target tree, []⟩ := by
  apply parse?_of_reads
  have reads := spaced.statement_reads_assignment identifiers isIdentifier
  simpa using reads

end

end Statement

end LineCalculator
