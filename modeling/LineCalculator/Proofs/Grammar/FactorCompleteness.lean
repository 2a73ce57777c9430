import LineCalculator.Proofs.Grammar.Continuation
import LineCalculator.Proofs.Grammar.CoupledStatements
import LineCalculator.Proofs.Grammar.StagedAttempts
import LineCalculator.Proofs.Grammar.Success
import LineCalculator.Proofs.Token.KnownName

/-!
# Factors that can be derived are read

Where a text is a chain of factors, the rule for factors takes a factor from its
front and leaves the rest of a chain. The factor taken may be another one than
in the given derivation: a bound name in front of the symbol of a step is read
with that step.
-/

namespace LineCalculator

namespace Grammar

open Token (Written first? Stops)

/-- The rule for sums takes every chain in a text shorter than a bound. -/
def SumsFound
    (names : List String)
    (entries : Entries σ)
    (bound : Nat) : Prop :=
  ∀ text rest steps, text.length < bound → Joined names text rest →
    (entries .sum).Finds ⟨text, steps⟩ rest

/-- A rule takes a factor from every chain in a text shorter than a bound and
leaves the rest of a chain. -/
def FactorsFound
    (names : List String)
    (rule : Rule σ Expr)
    (bound : Nat) : Prop :=
  ∀ text rest steps, text.length < bound → Joined names text rest →
    ∃ after, rule.Finds ⟨text, steps⟩ after ∧ Continues names after rest

variable
  {environment : Environment}
  {entries : Entries (List StagedStep)}
  {steps : List StagedStep}
  {name : String}
  {word text rest : List Char}
  {phrase : Phrase}

/-- The symbol of a step is found where it is written. -/
theorem stepSymbol_append
    {step : Step}
    (written : Written step.symbol.toList word)
    (text : List Char) :
    Token.anyOf Step.symbol Step.all (word ++ text) = some (step, text) :=
  Token.anyOf_eq_some_of_distinct (by decide) step.mem_all
    (written.literal_append step.visible_symbol text)

/-- No step is found where another character than a mark stands. -/
theorem stepSymbol_eq_none
    (first : ∀ character ∈ first? text, ∀ step : Step, character ≠ step.mark) :
    Token.anyOf Step.symbol Step.all text = none := by
  apply Token.anyOf_eq_none
  intro step _ same
  rw [step.symbol_toList] at same
  exact first step.mark same step rfl

theorem stepSymbol_eq_none_of_written
    {expected : Char}
    (written : Written [expected] word)
    (notBlank : isBlank expected = false)
    (notMark : ∀ step : Step, expected ≠ step.mark)
    (text : List Char) :
    Token.anyOf Step.symbol Step.all (word ++ text) = none := by
  apply stepSymbol_eq_none
  rw [written.first?_append ⟨expected, rfl, notBlank⟩]
  rintro _ ⟨⟩
  exact notMark

/-- No step in front of a name is found where another character than a mark
stands. -/
theorem stepBefore_misses
    (first : ∀ character ∈ first? text, ∀ step : Step, character ≠ step.mark) :
    (stepBefore (.staging environment)).Misses ⟨text, steps⟩ :=
  (misses_token (stepSymbol_eq_none first)).bind.attempt

section

variable
  (identifiers : ∀ name ∈ environment.names, Token.IsIdentifier name.toList)
include identifiers

/-- A bound name is read where it is written as a whole word. -/
theorem knownName_reads
    (bound : name ∈ environment.names)
    (written : Written name.toList word)
    (stops : Stops Char.isAlphanum text) :
    (knownName (.staging environment)).Reads (word ++ text) name text := by
  have known : ∀ name ∈ environment.namesByLength,
      Token.IsIdentifier name.toList :=
    fun name member => identifiers name (Environment.mem_namesByLength.mp member)
  refine reads_token (Token.anyOf_eq_some_of_longestFirst known
    environment.longestFirst_namesByLength
    (Environment.mem_namesByLength.mpr bound) stops ?_)
  exact (written.skipBlanks_append (identifiers name bound).visible text).symm

/-- A step in front of a bound name is found where both are written. -/
theorem stepBefore_finds
    {step : Step}
    {symbolWord : List Char}
    (bound : name ∈ environment.names)
    (symbolWritten : Written step.symbol.toList symbolWord)
    (nameWritten : Written name.toList word)
    (stops : Stops Char.isAlphanum text) :
    (stepBefore (.staging environment)).Finds
      ⟨symbolWord ++ (word ++ text), steps⟩ text := by
  refine Rule.Finds.attempt (Rule.Finds.bind
    (finds_token (stepSymbol_append symbolWritten _)) ?_)
  intro step steps
  refine Rule.Finds.bind
    ((knownName_reads identifiers bound nameWritten stops).finds steps) ?_
  intro name steps
  exact ⟨_, _, rfl⟩

/-- A step behind a bound name is read where both are written. -/
theorem stepAfter_reads
    {step : Step}
    {after : List Char}
    (bound : name ∈ environment.names)
    (nameWritten : Written name.toList word)
    (stops : Stops Char.isAlphanum text)
    (symbolRead : Token.anyOf Step.symbol Step.all text = some (step, after)) :
    (stepAfter (.staging environment)).Reads (word ++ text)
      (.postStep name step) after := by
  have nameRead := knownName_reads identifiers bound nameWritten stops
  exact Rule.Reads.attempt (nameRead.bind.trans (reads_token symbolRead).bind)

/-- Without a letter in front there is no bound name before a step. -/
theorem stepAfter_misses_of_first
    (first : ∀ character ∈ first? text, character.isAlpha = false) :
    (stepAfter (.staging environment)).Misses ⟨text, steps⟩ := by
  refine (Rule.Misses.bind (misses_token (Token.anyOf_eq_none ?_))).attempt
  intro name member same
  have bound : name ∈ environment.names :=
    Environment.mem_namesByLength.mp member
  obtain ⟨head, isHead, alpha⟩ := (identifiers name bound).exists_first
  rw [← show first? text = name.toList.head? from same] at isHead
  simp [first head isHead] at alpha

/-- An identifier is read as a bound name before a step only when it is bound
and the symbol of a step follows it. -/
theorem stepAfter_misses_of_name
    (isIdentifier : Token.IsIdentifier name.toList)
    (written : Written name.toList word)
    (stops : Stops Char.isAlphanum text)
    (noStep : name ∈ environment.names →
      Token.anyOf Step.symbol Step.all text = none) :
    (stepAfter (.staging environment)).Misses ⟨word ++ text, steps⟩ := by
  refine (misses_bind ?_).attempt
  intro known middle knownRead
  obtain ⟨read, -⟩ := token_eq_some_iff.mp knownRead
  have bound : known ∈ environment.names :=
    Environment.mem_namesByLength.mp (Token.mem_of_anyOf read)
  obtain ⟨tail, nameSplit, restSplit⟩ := Token.exists_tail_of_literal
    (identifiers known bound) stops
    (written.skipBlanks_append isIdentifier.visible text).symm
    (Token.literal_of_anyOf read)
  refine (misses_token ?_).bind
  rw [← restSplit]
  cases tail with
  | nil =>
      have same : known = name :=
        String.toList_injective (by simpa using nameSplit)
      exact noStep (same ▸ bound)
  | cons head tail =>
      have inside : head.isAlphanum = true :=
        isIdentifier.isAlphanum (by simp [← nameSplit])
      apply stepSymbol_eq_none
      intro character isFirst step
      rw [List.cons_append, Token.first?_cons_of_isAlphanum inside,
        Option.mem_some_iff] at isFirst
      exact step.ne_mark (.inr (isFirst ▸ inside))

omit identifiers

/-- No call is found where no letter stands. -/
theorem call_misses_of_first
    (first : ∀ character ∈ first? text, character.isAlpha = false) :
    (call (.staging environment) entries).Misses ⟨text, steps⟩ := by
  refine (Rule.Misses.bind (misses_token (Token.anyOf_eq_none ?_))).attempt
  intro function _ same
  obtain ⟨head, isHead, alpha⟩ := function.isIdentifier_name.exists_first
  rw [← same] at isHead
  simp [first head isHead] at alpha

/-- An identifier is read as the name of a function only when a parenthesis
follows it. -/
theorem call_misses_of_name
    (isIdentifier : Token.IsIdentifier name.toList)
    (written : Written name.toList word)
    (stops : Stops Char.isAlphanum text)
    (notOpen : first? text ≠ some '(') :
    (call (.staging environment) entries).Misses ⟨word ++ text, steps⟩ := by
  refine (misses_bind ?_).attempt
  intro function middle functionRead
  obtain ⟨read, -⟩ := token_eq_some_iff.mp functionRead
  obtain ⟨tail, nameSplit, restSplit⟩ := Token.exists_tail_of_literal
    function.isIdentifier_name stops
    (written.skipBlanks_append isIdentifier.visible text).symm
    (Token.literal_of_anyOf read)
  refine (misses_token (Token.character_eq_none ?_)).bind
  rw [← restSplit]
  cases tail with
  | nil => exact notOpen
  | cons head tail =>
      have inside : head.isAlphanum = true :=
        isIdentifier.isAlphanum (by simp [← nameSplit])
      rw [List.cons_append, Token.first?_cons_of_isAlphanum inside]
      rintro ⟨⟩
      revert inside
      decide

/-- A sum between parentheses is found when the sum is. -/
theorem enclosed_finds
    {openWord innerWord closeWord : List Char}
    (build : Expr → Expr)
    (openWritten : Written ['('] openWord)
    (closeWritten : Written [')'] closeWord)
    (sumFinds : ∀ steps, (entries .sum).Finds
      ⟨innerWord ++ (closeWord ++ text), steps⟩ (closeWord ++ text)) :
    Rule.Finds (do
        token (Token.character '(')
        let inner ← entries .sum
        token (Token.character ')')
        pure (build inner))
      ⟨openWord ++ (innerWord ++ (closeWord ++ text)), steps⟩ text := by
  refine Rule.Finds.bind
    (finds_token (openWritten.character_append (by decide) _)) ?_
  intro _ steps
  refine Rule.Finds.bind (sumFinds steps) ?_
  intro inner steps
  refine Rule.Finds.bind
    (finds_token (closeWritten.character_append (by decide) _)) ?_
  intro _ steps
  exact ⟨_, _, rfl⟩

/-- A call is found when its argument is found in front of the closing
parenthesis. -/
theorem call_finds
    {function : MathFunction}
    {openWord innerWord closeWord : List Char}
    (nameWritten : Written function.name.toList word)
    (openWritten : Written ['('] openWord)
    (closeWritten : Written [')'] closeWord)
    (sumFinds : ∀ steps, (entries .sum).Finds
      ⟨innerWord ++ (closeWord ++ text), steps⟩ (closeWord ++ text)) :
    (call (.staging environment) entries).Finds
      ⟨word ++ (openWord ++ (innerWord ++ (closeWord ++ text))), steps⟩ text := by
  have found := nameWritten.literal_append function.isIdentifier_name.visible
    (openWord ++ (innerWord ++ (closeWord ++ text)))
  refine Rule.Finds.attempt (Rule.Finds.bind (finds_token
    (Token.anyOf_eq_some_of_distinct (by decide) function.mem_all found)) ?_)
  intro found steps
  exact enclosed_finds (.call found.name) openWritten closeWritten sumFinds

end

/-! ## Operands -/

theorem SumsFound.mono
    {names : List String}
    {bound smaller : Nat}
    (sums : SumsFound names entries bound)
    (le : smaller ≤ bound) :
    SumsFound names entries smaller :=
  fun text rest steps short => sums text rest steps (short.trans_le le)

/-- A sum is taken up to the parenthesis that closes it. -/
theorem SumsFound.finds_of_close
    {names : List String}
    {bound : Nat}
    {innerWord closeWord : List Char}
    (sums : SumsFound names entries bound)
    (derived : Derives names .sum innerWord phrase)
    (closeWritten : Written [')'] closeWord)
    (short : (innerWord ++ (closeWord ++ text)).length < bound)
    (steps : List StagedStep) :
    (entries .sum).Finds
      ⟨innerWord ++ (closeWord ++ text), steps⟩ (closeWord ++ text) := by
  have closes := closes_of_written closeWritten text
  exact sums _ _ steps short (.of_sum derived (.close closes))

/-- No function is found when none of its three forms is. -/
theorem function_misses
    (stepBeforeMisses : (stepBefore (.staging environment)).Misses ⟨text, steps⟩)
    (stepAfterMisses : (stepAfter (.staging environment)).Misses ⟨text, steps⟩)
    (callMisses : (call (.staging environment) entries).Misses ⟨text, steps⟩) :
    (function (.staging environment) entries).Misses ⟨text, steps⟩ := by
  have reversible := reversible_staging environment
  exact (isAtomic_stepBefore reversible).orElse_misses stepBeforeMisses
    ((isAtomic_stepAfter reversible).orElse_misses stepAfterMisses callMisses)

/-- No function is read where a parenthesis or a digit stands. -/
theorem function_misses_of_first
    (identifiers : ∀ name ∈ environment.names, Token.IsIdentifier name.toList)
    (first : ∃ head ∈ first? text, head = '(' ∨ head.isDigit = true) :
    (function (.staging environment) entries).Misses ⟨text, steps⟩ := by
  obtain ⟨head, isHead, kind⟩ := first
  have notMark (step : Step) : head ≠ step.mark :=
    step.ne_mark (kind.imp_right fun digit => isAlphanum_iff.mpr (.inr digit))
  have notAlpha : head.isAlpha = false := by
    rcases kind with rfl | digit
    · decide
    · exact isAlpha_eq_false_of_isDigit digit
  refine function_misses (stepBefore_misses ?_)
    (stepAfter_misses_of_first identifiers ?_) (call_misses_of_first ?_)
  · intro character isFirst
    exact Option.mem_unique isHead isFirst ▸ notMark
  · intro character isFirst
    exact Option.mem_unique isHead isFirst ▸ notAlpha
  · intro character isFirst
    exact Option.mem_unique isHead isFirst ▸ notAlpha

theorem stepBefore_misses_of_name
    (isIdentifier : Token.IsIdentifier name.toList)
    (written : Written name.toList word) :
    (stepBefore (.staging environment)).Misses ⟨word ++ text, steps⟩ := by
  apply stepBefore_misses
  intro character isFirst step
  rw [written.first?_append isIdentifier.visible] at isFirst
  have member := List.mem_of_mem_head? isFirst
  exact step.ne_mark (.inr (isIdentifier.isAlphanum member))

/-- No function is read where an operand stands, unless the operand is a bound
name and a step follows it. -/
theorem function_misses_of_operand
    (identifiers : ∀ name ∈ environment.names, Token.IsIdentifier name.toList)
    (derived : Derives environment.names .operand word phrase)
    (follows : Follows text)
    (noStep : ∀ name ∈ environment.names, Written name.toList word →
      Token.anyOf Step.symbol Step.all text = none) :
    (function (.staging environment) entries).Misses ⟨word ++ text, steps⟩ := by
  rcases derived.name_or_first text with
    ⟨name, isIdentifier, written⟩ | first
  · exact function_misses (stepBefore_misses_of_name isIdentifier written)
      (stepAfter_misses_of_name identifiers isIdentifier written follows.stops
        fun bound => noStep name bound written)
      (call_misses_of_name isIdentifier written follows.stops follows.ne_open)
  · exact function_misses_of_first identifiers first

theorem group_misses
    (first : first? text ≠ some '(') :
    (group (.staging environment) entries).Misses ⟨text, steps⟩ :=
  (misses_token (Token.character_eq_none first)).bind.attempt

/-- Neither a parenthesis nor a name nor a numeral starts with another
character. -/
theorem operand_misses
    (proper : Satisfy entries (Proper (Appends environment.names)))
    (groupMisses : (group (.staging environment) entries).Misses ⟨text, steps⟩)
    (notAlpha : ∀ first ∈ first? text, first.isAlpha = false)
    (notDigit : ∀ first ∈ first? text, first.isDigit = false) :
    (operand (.staging environment) entries).Misses ⟨text, steps⟩ := by
  have reversible := reversible_staging environment
  have nameMisses : (token Token.identifier : Rule (List StagedStep) String).Misses
      ⟨text, steps⟩ :=
    misses_token (Token.identifier_eq_none notAlpha)
  have numberMisses : (token Token.number : Rule (List StagedStep) Float).Misses
      ⟨text, steps⟩ :=
    misses_token (Token.number_eq_none notDigit)
  exact (isAtomic_group reversible proper).orElse_misses groupMisses
    ((isAtomic_var reversible).orElse_misses nameMisses.map numberMisses.map)

/-- A name is read as an operand where no call or step stands. -/
theorem operand_reads_name
    (proper : Satisfy entries (Proper (Appends environment.names)))
    (isIdentifier : Token.IsIdentifier name.toList)
    (written : Written name.toList word)
    (stops : Stops Char.isAlphanum text) :
    (operand (.staging environment) entries).Reads
      (word ++ text) (.var name) text := by
  have read : Token.identifier (word ++ text) = some (name, text) :=
    Token.identifier_eq_some_iff.mpr ⟨isIdentifier, stops,
      (written.skipBlanks_append isIdentifier.visible text).symm⟩
  have groupAtomic := isAtomic_group (reversible_staging environment) proper
  refine (groupAtomic.orElse_leadsTo fun _ => group_misses ?_).trans
    ((reads_token read).map Expr.var).orElse
  obtain ⟨head, isHead, alpha⟩ := isIdentifier.exists_first
  rw [written.first?_append isIdentifier.visible, isHead]
  rintro ⟨⟩
  revert alpha
  decide

/-- A numeral is read as an operand by its number. -/
theorem operand_reads_number
    (proper : Satisfy entries (Proper (Appends environment.names)))
    {numeral : Numeral}
    (wellFormed : numeral.WellFormed)
    (written : Written numeral.characters word)
    (follows : Follows text) :
    (operand (.staging environment) entries).Reads
      (word ++ text) (.literal numeral.toFloat) text := by
  have reversible := reversible_staging environment
  have nameAtomic := isAtomic_var reversible
  have read := Token.number_eq_some wellFormed follows.stops follows.ne_point
    (written.skipBlanks_append wellFormed.visible text).symm
  obtain ⟨head, isHead, digit⟩ := wellFormed.exists_first
  have isFirst : first? (word ++ text) = some head := by
    rwa [written.first?_append wellFormed.visible]
  have noName : Token.identifier (word ++ text) = none := by
    apply Token.identifier_eq_none
    intro character isCharacter
    rw [isFirst, Option.mem_some_iff] at isCharacter
    exact isCharacter ▸ isAlpha_eq_false_of_isDigit digit
  refine ((isAtomic_group reversible proper).orElse_leadsTo fun _ =>
      group_misses ?_).trans
    ((nameAtomic.orElse_leadsTo fun _ => (misses_token noName).map).trans
      ((reads_token read).map Expr.literal))
  rw [isFirst]
  rintro ⟨⟩
  revert digit
  decide

/-- An operand is read where it stands in front of what can follow it. -/
theorem operand_finds
    (proper : Satisfy entries (Proper (Appends environment.names)))
    (derived : Derives environment.names .operand word phrase)
    (follows : Follows text)
    (sums : SumsFound environment.names entries (word ++ text).length) :
    (operand (.staging environment) entries).Finds
      ⟨word ++ text, steps⟩ text := by
  cases derived with
  | @group _ openWord innerWord closeWord openWritten innerDerived
      closeWritten =>
      have positive := openWritten.length_pos ⟨'(', rfl, by decide⟩
      have innerFinds := sums.finds_of_close innerDerived closeWritten
        (show (innerWord ++ (closeWord ++ text)).length < _ by
          simp only [List.length_append]
          omega)
      rw [List.append_assoc, List.append_assoc]
      exact Rule.Finds.orElse (Rule.Finds.attempt
        (enclosed_finds id openWritten closeWritten innerFinds))
  | var isIdentifier written =>
      exact (operand_reads_name proper isIdentifier written
        follows.stops).finds steps
  | number wellFormed written =>
      exact (operand_reads_number proper wellFormed written follows).finds steps

/-! ## Factors -/

/-- A bound name with a step after it is read as that. -/
theorem function_reads_of_stepAfter
    {step : Step}
    {after : List Char}
    (identifiers : ∀ name ∈ environment.names, Token.IsIdentifier name.toList)
    (bound : name ∈ environment.names)
    (written : Written name.toList word)
    (stops : Stops Char.isAlphanum text)
    (symbolRead : Token.anyOf Step.symbol Step.all text = some (step, after)) :
    (function (.staging environment) entries).Reads (word ++ text)
      (.postStep name step) after := by
  have atomic := isAtomic_stepBefore (reversible_staging environment)
  have stepRead := stepAfter_reads identifiers bound written stops symbolRead
  refine (atomic.orElse_leadsTo fun _ => ?_).trans stepRead.orElse
  exact stepBefore_misses_of_name (identifiers name bound) written

/-- The name of a function with a parenthesis after it can only be read as a
call. -/
theorem function_leadsTo_call
    {function : MathFunction}
    {openWord : List Char}
    (identifiers : ∀ name ∈ environment.names, Token.IsIdentifier name.toList)
    (nameWritten : Written function.name.toList word)
    (openWritten : Written ['('] openWord)
    (text : List Char) :
    (Grammar.function (.staging environment) entries).LeadsTo
      (word ++ (openWord ++ text))
      (call (.staging environment) entries) (word ++ (openWord ++ text)) := by
  have reversible := reversible_staging environment
  have isIdentifier := function.isIdentifier_name
  have stops := openWritten.stops ⟨'(', rfl, by decide⟩ ⟨'(', rfl, by decide⟩
    text
  have noStep := stepSymbol_eq_none_of_written openWritten (by decide)
    (Step.ne_mark (.inl rfl)) text
  refine ((isAtomic_stepBefore reversible).orElse_leadsTo fun _ => ?_).trans
    ((isAtomic_stepAfter reversible).orElse_leadsTo fun _ => ?_)
  · exact stepBefore_misses_of_name isIdentifier nameWritten
  · exact stepAfter_misses_of_name identifiers isIdentifier nameWritten stops
      fun _ => noStep

theorem power_misses
    {base : Expr}
    (first : first? text ≠ some '^') :
    (power (.staging environment) entries base).Misses ⟨text, steps⟩ :=
  (misses_token (Token.character_eq_none first)).bind.attempt

/-- A power is found when its exponent is found behind the caret. -/
theorem power_finds
    {base : Expr}
    {property : List Char → Prop}
    (caretWritten : Written ['^'] word)
    (exponentFinds : ∀ steps, ∃ rest,
      (entries .factor).Finds ⟨text, steps⟩ rest ∧ property rest) :
    ∃ rest, (power (.staging environment) entries base).Finds
      ⟨word ++ text, steps⟩ rest ∧ property rest := by
  have caretRead := caretWritten.character_append (by decide) text
  obtain ⟨rest, finds, holds⟩ : ∃ rest, Rule.Finds (do
        token (Token.character '^')
        let exponent ← entries .factor
        pure (Expr.binary .exponentiation base exponent))
      ⟨word ++ text, steps⟩ rest ∧ property rest := by
    refine Rule.Finds.exists_bind (finds_token caretRead) ?_
    intro _ steps
    obtain ⟨rest, factorFinds, holds⟩ := exponentFinds steps
    refine ⟨rest, factorFinds.bind ?_, holds⟩
    exact fun exponent steps => ⟨_, _, rfl⟩
  exact ⟨rest, finds.attempt, holds⟩

section

variable
  {bound : Nat}
  (identifiers : ∀ name ∈ environment.names, Token.IsIdentifier name.toList)
  (proper : Satisfy entries (Proper (Appends environment.names)))
  (sums : SumsFound environment.names entries bound)
include identifiers sums

theorem function_finds
    (derived : Derives environment.names .function word phrase)
    (follows : Follows text)
    (short : (word ++ text).length ≤ bound) :
    (function (.staging environment) entries).Finds
      ⟨word ++ text, steps⟩ text := by
  cases derived with
  | stepBefore _ isBound symbolWritten nameWritten =>
      rw [List.append_assoc]
      exact (stepBefore_finds identifiers isBound symbolWritten nameWritten
        follows.stops).orElse
  | @stepAfter _ step _ symbolWord _ isBound nameWritten symbolWritten =>
      have stops := symbolWritten.stops step.visible_symbol
        ⟨step.mark, by simp [step.symbol_toList], by cases step <;> decide⟩ text
      rw [List.append_assoc]
      exact (function_reads_of_stepAfter identifiers isBound nameWritten stops
        (stepSymbol_append symbolWritten text)).finds steps
  | @call function argument nameWord openWord argumentWord closeWord nameWritten
      openWritten argumentDerived closeWritten =>
      have positive := openWritten.length_pos ⟨'(', rfl, by decide⟩
      have argumentFinds := sums.finds_of_close argumentDerived closeWritten
        (show (argumentWord ++ (closeWord ++ text)).length < _ by
          simp only [List.length_append] at short ⊢
          omega)
      simp only [List.append_assoc]
      exact (function_leadsTo_call identifiers nameWritten openWritten _).finds
        (call_finds nameWritten openWritten closeWritten argumentFinds)

include proper

/-- In front of the rest of a chain an operand is read as a factor, or a bound
name is read with the step that follows it. -/
theorem exists_factor_finds_of_operand
    (derived : Derives environment.names .operand word phrase)
    (continues : Continues environment.names text rest)
    (short : (word ++ text).length ≤ bound) :
    ∃ after, (factor (.staging environment) entries).Finds
        ⟨word ++ text, steps⟩ after ∧
      Continues environment.names after rest := by
  have reversible := reversible_staging environment
  have follows := continues.follows
  by_cases stepped : ∃ name ∈ environment.names, Written name.toList word ∧
      Token.anyOf Step.symbol Step.all text ≠ none
  · obtain ⟨name, isBound, written, isStep⟩ := stepped
    obtain ⟨⟨step, after⟩, symbolRead⟩ := Option.ne_none_iff_exists'.mp isStep
    have split := Token.split_of_anyOf symbolRead
    refine ⟨after, Rule.Finds.orElse ?_, continues.after_step split⟩
    exact (function_reads_of_stepAfter identifiers isBound written
      follows.stops symbolRead).finds steps
  · have functionMisses : (function (.staging environment) entries).Misses
        ⟨word ++ text, steps⟩ := by
      refine function_misses_of_operand identifiers derived follows ?_
      intro name isBound written
      by_contra isStep
      exact stepped ⟨name, isBound, written, isStep⟩
    refine ⟨text, (isAtomic_function reversible proper).orElse_finds
      functionMisses ?_, continues⟩
    refine (operand_finds proper derived follows (sums.mono short)).bind ?_
    intro base steps
    exact (isAtomic_power reversible proper base).orElse_finds
      (power_misses continues.first?_ne_caret) ⟨base, steps, rfl⟩

/-- An operand with a caret after it is read with the factor behind the
caret. -/
theorem exists_factor_finds_of_power
    {caretWord : List Char}
    (derived : Derives environment.names .operand word phrase)
    (caretWritten : Written ['^'] caretWord)
    (exponentFinds : ∀ steps, ∃ after,
      (entries .factor).Finds ⟨text, steps⟩ after ∧
        Continues environment.names after rest)
    (short : (word ++ (caretWord ++ text)).length ≤ bound) :
    ∃ after, (factor (.staging environment) entries).Finds
        ⟨word ++ (caretWord ++ text), steps⟩ after ∧
      Continues environment.names after rest := by
  have reversible := reversible_staging environment
  have follows : Follows (caretWord ++ text) := by
    intro first isFirst
    rw [caretWritten.first?_append ⟨'^', rfl, by decide⟩] at isFirst
    exact .inr ⟨.exponentiation, (Option.mem_some_iff.mp isFirst).symm⟩
  have noStep := stepSymbol_eq_none_of_written caretWritten (by decide)
    (fun step => by cases step <;> decide) text
  have functionMisses : (function (.staging environment) entries).Misses
      ⟨word ++ (caretWord ++ text), steps⟩ :=
    function_misses_of_operand identifiers derived follows fun _ _ _ => noStep
  obtain ⟨after, finds, continues⟩ : ∃ after, Rule.Finds (do
        let base ← operand (.staging environment) entries
        power (.staging environment) entries base <|> pure base)
      ⟨word ++ (caretWord ++ text), steps⟩ after ∧
        Continues environment.names after rest := by
    refine Rule.Finds.exists_bind
      (operand_finds proper derived follows (sums.mono short)) ?_
    intro base steps
    obtain ⟨after, finds, continues⟩ := power_finds caretWritten exponentFinds
    exact ⟨after, finds.orElse, continues⟩
  exact ⟨after, (isAtomic_function reversible proper).orElse_finds
    functionMisses finds, continues⟩

/-- The rule for factors takes a factor from every chain, given what its entries
take from shorter ones. -/
theorem factorsFound_factor
    (factors : FactorsFound environment.names (entries .factor) bound) :
    FactorsFound environment.names (factor (.staging environment) entries)
      (bound + 1) := by
  intro text rest steps short joined
  obtain ⟨factorWord, phrase, after, derived, rfl, continues⟩ := joined
  have short : (factorWord ++ after).length ≤ bound := Nat.lt_succ_iff.mp short
  cases derived with
  | function derived =>
      refine ⟨after, Rule.Finds.orElse ?_, continues⟩
      exact function_finds identifiers sums derived continues.follows short
  | operand derived =>
      exact exists_factor_finds_of_operand identifiers proper sums derived
        continues short
  | @power base exponent baseWord caretWord exponentWord baseDerived
      caretWritten exponentDerived =>
      have joined : Joined environment.names (exponentWord ++ after) rest :=
        ⟨exponentWord, exponent, after, exponentDerived, rfl, continues⟩
      have positive := caretWritten.length_pos ⟨'^', rfl, by decide⟩
      simp only [List.append_assoc] at short ⊢
      have shorter : (exponentWord ++ after).length < bound := by
        simp only [List.length_append] at short ⊢
        omega
      exact exists_factor_finds_of_power identifiers proper sums baseDerived
        caretWritten (fun steps => factors _ rest steps shorter joined) short

end

end Grammar

end LineCalculator
