import LineCalculator.Proofs.Grammar.Derivation
import LineCalculator.Proofs.Grammar.ImmediateSteps
import LineCalculator.Proofs.Grammar.Success
import LineCalculator.Proofs.Number.NumeralReading

/-!
# What is read can be derived

Every rule that gives a value has taken a word of its category, and the value
and the steps staged meanwhile are those of a phrase that the word derives. The
rest of a sum or product carries the derivation of what stands to its left on to
the right.
-/

namespace LineCalculator

namespace Grammar

/-- Between two states a word of a category is taken, and it derives a phrase
with the given value and the steps staged in between. -/
def ReadBetween
    (environment : Environment)
    (category : Category)
    (start finish : State (List StagedStep))
    (value : Expr) : Prop :=
  ∃ word phrase, word ++ finish.rest = start.rest ∧
    Derives environment.names category word phrase ∧
    phrase.read environment start.steps = (value, finish.steps)

/-- Between two states a word is taken that continues every word of a category
whose phrase has the value to the left. -/
def ContinuedBetween
    (environment : Environment)
    (category : Category)
    (left : Expr)
    (start finish : State (List StagedStep))
    (value : Expr) : Prop :=
  ∀ leftWord leftPhrase steps,
    Derives environment.names category leftWord leftPhrase →
    leftPhrase.read environment steps = (left, start.steps) →
    ∃ word phrase, word ++ finish.rest = start.rest ∧
      Derives environment.names category (leftWord ++ word) phrase ∧
      phrase.read environment steps = (value, finish.steps)

/-- What the value of an entry says about the text between two states. -/
def Entry.Between
    (environment : Environment) :
    Entry → State (List StagedStep) → State (List StagedStep) → Expr → Prop
  | .sum => ReadBetween environment .sum
  | .factor => ReadBetween environment .factor
  | .moreTerms left => ContinuedBetween environment .sum left
  | .moreFactors left => ContinuedBetween environment .product left

/-- A result of an entry that can be derived when it has a value. -/
def Sound (environment : Environment) : ResultProperty (List StagedStep) :=
  fun entry start result => ∀ value finish, result = (some value, finish) →
    entry.Between environment start finish value

variable
  {environment : Environment}
  {entries : Entries (List StagedStep)}
  {start finish : State (List StagedStep)}
  {value : Expr}

theorem exists_word_of_character
    {expected : Char}
    (outcome : (token (Token.character expected)).run start =
      (some (), finish)) :
    finish.steps = start.steps ∧
      ∃ word, Token.Written [expected] word ∧
        word ++ finish.rest = start.rest := by
  obtain ⟨found, steps⟩ := token_eq_some_iff.mp outcome
  exact ⟨steps, Token.exists_written (Token.character_eq_some_iff.mp found)⟩

/-- A word that is found is written in front of the rest. -/
theorem exists_word_of_literal
    {word : String}
    (outcome : (token (Token.literal word)).run start = (some (), finish)) :
    finish.steps = start.steps ∧
      ∃ written, Token.Written word.toList written ∧
        written ++ finish.rest = start.rest := by
  obtain ⟨found, steps⟩ := token_eq_some_iff.mp outcome
  exact ⟨steps, Token.exists_written (Token.literal_eq_some_iff.mp found).2⟩

theorem exists_word_of_anyOf
    {spelling : α → String}
    {values : List α}
    {found : α}
    (outcome : (token (Token.anyOf spelling values)).run start =
      (some found, finish)) :
    finish.steps = start.steps ∧ found ∈ values ∧
      ∃ word, Token.Written (spelling found).toList word ∧
        word ++ finish.rest = start.rest := by
  obtain ⟨read, steps⟩ := token_eq_some_iff.mp outcome
  have split := Token.split_of_anyOf read
  exact ⟨steps, Token.mem_of_anyOf read, Token.exists_written split⟩

theorem exists_word_of_identifier
    {name : String}
    (outcome : (token Token.identifier).run start = (some name, finish)) :
    finish.steps = start.steps ∧ Token.IsIdentifier name.toList ∧
      ∃ word, Token.Written name.toList word ∧
        word ++ finish.rest = start.rest := by
  obtain ⟨read, steps⟩ := token_eq_some_iff.mp outcome
  obtain ⟨isIdentifier, -, split⟩ := Token.identifier_eq_some_iff.mp read
  exact ⟨steps, isIdentifier, Token.exists_written split⟩

theorem readBetween_identifier
    {name : String}
    (outcome : (token Token.identifier).run start = (some name, finish)) :
    ReadBetween environment .operand start finish (.var name) := by
  obtain ⟨steps, isIdentifier, word, written, split⟩ :=
    exists_word_of_identifier outcome
  exact ⟨word, .var name, split, .var isIdentifier written, by
    rw [steps]
    rfl⟩

theorem readBetween_number
    {number : Float}
    (outcome : (token Token.number).run start = (some number, finish)) :
    ReadBetween environment .operand start finish (.literal number) := by
  obtain ⟨read, steps⟩ := token_eq_some_iff.mp outcome
  obtain ⟨numeral, wellFormed, rfl, split⟩ :=
    Token.exists_numeral_of_number read
  obtain ⟨word, written, split⟩ := Token.exists_written split
  exact ⟨word, .number numeral, split, .number wellFormed written, by
    rw [steps]
    rfl⟩

section

variable
  (identifiers : ∀ name ∈ environment.names, Token.IsIdentifier name.toList)
include identifiers

/-- A known name that is found is a bound identifier, written in front of the
rest. -/
theorem exists_word_of_knownName
    {name : String}
    (outcome : (knownName (.staging environment)).run start =
      (some name, finish)) :
    finish.steps = start.steps ∧ name ∈ environment.names ∧
      Token.IsIdentifier name.toList ∧
      ∃ word, Token.Written name.toList word ∧
        word ++ finish.rest = start.rest := by
  obtain ⟨steps, member, word⟩ := exists_word_of_anyOf outcome
  have bound : name ∈ environment.names :=
    Environment.mem_namesByLength.mp member
  exact ⟨steps, bound, identifiers name bound, word⟩

/-- A step in front of a name is derived, with the staged step as its
phrase. -/
theorem readBetween_stepBefore
    (outcome : (stepBefore (.staging environment)).run start =
      (some value, finish)) :
    ReadBetween environment .function start finish value := by
  rw [stepBefore, attempt_eq_some_iff] at outcome
  simp only [bind_eq_some_iff, Rule.run_get, Rule.run_set, Rule.run_pure,
    Prod.mk.injEq, Option.some.injEq] at outcome
  obtain ⟨step, afterStep, stepRead, name, afterName, nameRead, state, _,
    ⟨rfl, rfl⟩, _, _, ⟨-, rfl⟩, rfl, rfl⟩ := outcome
  obtain ⟨stepSteps, -, symbolWord, symbolWritten, symbolSplit⟩ :=
    exists_word_of_anyOf stepRead
  obtain ⟨nameSteps, bound, isIdentifier, nameWord, nameWritten, nameSplit⟩ :=
    exists_word_of_knownName identifiers nameRead
  refine ⟨symbolWord ++ nameWord, .stepBefore step name, ?_,
    .stepBefore isIdentifier bound symbolWritten nameWritten, ?_⟩
  · simp only [List.append_assoc, nameSplit, symbolSplit]
  · simp only [Phrase.read, Scope.staging, nameSteps, stepSteps]
    rw [Environment.applySteps_append,
      Environment.valueAfter_eq_lookup_applySteps]
    simp [Environment.applySteps, Environment.lookup_applyStep]

theorem readBetween_stepAfter
    (outcome : (stepAfter (.staging environment)).run start =
      (some value, finish)) :
    ReadBetween environment .function start finish value := by
  rw [stepAfter, attempt_eq_some_iff] at outcome
  simp only [bind_eq_some_iff, Rule.run_pure, Prod.mk.injEq,
    Option.some.injEq] at outcome
  obtain ⟨name, afterName, nameRead, step, afterStep, stepRead, rfl, rfl⟩ :=
    outcome
  obtain ⟨nameSteps, bound, isIdentifier, nameWord, nameWritten, nameSplit⟩ :=
    exists_word_of_knownName identifiers nameRead
  obtain ⟨stepSteps, -, symbolWord, symbolWritten, symbolSplit⟩ :=
    exists_word_of_anyOf stepRead
  refine ⟨nameWord ++ symbolWord, .stepAfter name step, ?_,
    .stepAfter isIdentifier bound nameWritten symbolWritten, ?_⟩
  · simp only [List.append_assoc, symbolSplit, nameSplit]
  · simp only [Phrase.read, stepSteps, nameSteps]

/-! ## Parts of a calculation -/

section

variable
  (proper : Satisfy entries (Proper (Appends environment.names)))
  (sound : Satisfy entries (Sound environment))
include sound

omit identifiers in
/-- A sum between parentheses takes its three words one after the other. -/
theorem exists_words_of_enclosed
    {build : Expr → Expr}
    (outcome : Rule.run (do
      token (Token.character '(')
      let inner ← entries .sum
      token (Token.character ')')
      pure (build inner)) start = (some value, finish)) :
    ∃ openWord innerWord closeWord phrase inner,
      openWord ++ (innerWord ++ (closeWord ++ finish.rest)) = start.rest ∧
      Token.Written ['('] openWord ∧
      Derives environment.names .sum innerWord phrase ∧
      Token.Written [')'] closeWord ∧
      phrase.read environment start.steps = (inner, finish.steps) ∧
      build inner = value := by
  simp only [bind_eq_some_iff, Rule.run_pure, Prod.mk.injEq,
    Option.some.injEq] at outcome
  obtain ⟨_, afterOpen, openRead, inner, afterInner, innerRead, _, _,
    closeRead, built, rfl⟩ := outcome
  obtain ⟨openSteps, openWord, openWritten, openSplit⟩ :=
    exists_word_of_character openRead
  obtain ⟨innerWord, phrase, innerSplit, derived, innerValue⟩ :=
    sound .sum afterOpen inner afterInner innerRead
  obtain ⟨closeSteps, closeWord, closeWritten, closeSplit⟩ :=
    exists_word_of_character closeRead
  refine ⟨openWord, innerWord, closeWord, phrase, inner, ?_, openWritten,
    derived, closeWritten, ?_, built⟩
  · rw [closeSplit, innerSplit, openSplit]
  · rw [closeSteps, ← innerValue, openSteps]

omit identifiers in
theorem readBetween_group
    (outcome : (group (.staging environment) entries).run start =
      (some value, finish)) :
    ReadBetween environment .operand start finish value := by
  rw [group, attempt_eq_some_iff] at outcome
  obtain ⟨openWord, innerWord, closeWord, phrase, inner, split, openWritten,
    derived, closeWritten, innerValue, rfl⟩ :=
      exists_words_of_enclosed sound outcome
  refine ⟨openWord ++ (innerWord ++ closeWord), phrase, ?_,
    .group openWritten derived closeWritten, innerValue⟩
  simpa only [List.append_assoc] using split

omit identifiers in
/-- A call is derived from the sum that is its argument. -/
theorem readBetween_call
    (outcome : (call (.staging environment) entries).run start =
      (some value, finish)) :
    ReadBetween environment .function start finish value := by
  rw [call, attempt_eq_some_iff] at outcome
  obtain ⟨function, afterName, nameRead, outcome⟩ :=
    bind_eq_some_iff.mp outcome
  obtain ⟨nameSteps, -, nameWord, nameWritten, nameSplit⟩ :=
    exists_word_of_anyOf nameRead
  obtain ⟨openWord, argumentWord, closeWord, phrase, argument, split,
    openWritten, derived, closeWritten, argumentValue, rfl⟩ :=
      exists_words_of_enclosed sound outcome
  rw [nameSteps] at argumentValue
  refine ⟨nameWord ++ (openWord ++ (argumentWord ++ closeWord)),
    .call function phrase, ?_,
    .call nameWritten openWritten derived closeWritten, ?_⟩
  · simp only [List.append_assoc, split, nameSplit]
  · simp only [Phrase.read, argumentValue]

theorem readBetween_function
    (outcome : (function (.staging environment) entries).run start =
      (some value, finish)) :
    ReadBetween environment .function start finish value := by
  have reversible := reversible_staging environment
  rcases (isAtomic_stepBefore reversible).orElse_eq_some outcome with
    before | outcome
  · exact readBetween_stepBefore identifiers before
  rcases (isAtomic_stepAfter reversible).orElse_eq_some outcome with
    after | outcome
  · exact readBetween_stepAfter identifiers after
  · exact readBetween_call sound outcome

include proper

omit identifiers in
theorem readBetween_operand
    (outcome : (operand (.staging environment) entries).run start =
      (some value, finish)) :
    ReadBetween environment .operand start finish value := by
  have reversible := reversible_staging environment
  rcases (isAtomic_group reversible proper).orElse_eq_some outcome with
    group | outcome
  · exact readBetween_group sound group
  rcases (isAtomic_var reversible).orElse_eq_some outcome with var | number
  · obtain ⟨name, read, rfl⟩ := map_eq_some_iff.mp var
    exact readBetween_identifier read
  · obtain ⟨number, read, rfl⟩ := map_eq_some_iff.mp number
    exact readBetween_number read

/-- A factor is derived, with its exponent if there is one. -/
theorem readBetween_factor
    (outcome : (factor (.staging environment) entries).run start =
      (some value, finish)) :
    ReadBetween environment .factor start finish value := by
  have reversible := reversible_staging environment
  rcases (isAtomic_function reversible proper).orElse_eq_some outcome with
    function | outcome
  · obtain ⟨word, phrase, split, derived, valueEq⟩ :=
      readBetween_function identifiers sound function
    exact ⟨word, phrase, split, .function derived, valueEq⟩
  obtain ⟨base, afterBase, baseRead, outcome⟩ := bind_eq_some_iff.mp outcome
  obtain ⟨baseWord, basePhrase, baseSplit, baseDerived, baseValue⟩ :=
    readBetween_operand proper sound baseRead
  rcases (isAtomic_power reversible proper base).orElse_eq_some outcome with
    power | alone
  · rw [Grammar.power, attempt_eq_some_iff] at power
    simp only [bind_eq_some_iff, Rule.run_pure, Prod.mk.injEq,
      Option.some.injEq] at power
    obtain ⟨_, afterCaret, caretRead, exponent, _, exponentRead, rfl, rfl⟩ :=
      power
    obtain ⟨caretSteps, caretWord, caretWritten, caretSplit⟩ :=
      exists_word_of_character caretRead
    obtain ⟨exponentWord, phrase, exponentSplit, derived, exponentValue⟩ :=
      sound .factor afterCaret exponent _ exponentRead
    rw [caretSteps] at exponentValue
    refine ⟨baseWord ++ (caretWord ++ exponentWord),
      .binary .exponentiation basePhrase phrase, ?_,
      .power baseDerived caretWritten derived, ?_⟩
    · simp only [List.append_assoc, exponentSplit, caretSplit, baseSplit]
    · simp only [Phrase.read, baseValue, exponentValue]
  · simp only [Rule.run_pure, Prod.mk.injEq, Option.some.injEq] at alone
    obtain ⟨rfl, rfl⟩ := alone
    exact ⟨baseWord, basePhrase, baseSplit, .operand baseDerived, baseValue⟩

end

section

variable
  {category below : Category}
  {operators : List Operator}
  {operand : Rule (List StagedStep) Expr}
  {again : Expr → Rule (List StagedStep) Expr}
  (operandReads : ∀ {start finish value},
    operand.run start = (some value, finish) →
      ReadBetween environment below start finish value)
  (againContinues : ∀ {left start finish value},
    (again left).run start = (some value, finish) →
      ContinuedBetween environment category left start finish value)
  (grouped : ∀ {operator left right leftWord symbolWord rightWord},
    operator ∈ operators →
    Derives environment.names category leftWord left →
    Token.Written operator.symbol.toList symbolWord →
    Derives environment.names below rightWord right →
    Derives environment.names category (leftWord ++ (symbolWord ++ rightWord))
      (.binary operator left right))
include operandReads againContinues grouped

omit identifiers in
/-- An operator and its right operand extend the derivation of what stands to
the left, and the rest goes on from there. -/
theorem continuedBetween_more
    {left : Expr}
    (outcome : (more operators operand again left).run start =
      (some value, finish)) :
    ContinuedBetween environment category left start finish value := by
  intro leftWord leftPhrase steps leftDerived leftValue
  obtain ⟨found, afterSymbol, optionalRead, outcome⟩ :=
    bind_eq_some_iff.mp outcome
  rw [Rule.run_optional, Prod.mk.injEq, Option.some.injEq] at optionalRead
  obtain ⟨foundEq, stateEq⟩ := optionalRead
  cases found with
  | none =>
      have unchanged := isAtomic_operatorSymbol (reversible_staging environment)
        operators start
      rcases symbolRead : (operatorSymbol operators).run start with
        ⟨_ | operator, middle⟩
      · rw [symbolRead] at stateEq unchanged
        rw [show afterSymbol = start from stateEq.symm.trans unchanged] at outcome
        simp only [Rule.run_pure, Prod.mk.injEq, Option.some.injEq] at outcome
        obtain ⟨rfl, rfl⟩ := outcome
        exact ⟨[], leftPhrase, rfl, by simpa using leftDerived, leftValue⟩
      · simp [symbolRead] at foundEq
  | some operator =>
      have symbolRead : (operatorSymbol operators).run start =
          (some operator, afterSymbol) := Prod.ext foundEq stateEq
      obtain ⟨symbolSteps, member, symbolWord, symbolWritten, symbolSplit⟩ :=
        exists_word_of_anyOf symbolRead
      obtain ⟨right, afterRight, rightRead, outcome⟩ :=
        bind_eq_some_iff.mp outcome
      obtain ⟨rightWord, rightPhrase, rightSplit, rightDerived, rightValue⟩ :=
        operandReads rightRead
      have derived := grouped member leftDerived symbolWritten rightDerived
      obtain ⟨word, phrase, split, allDerived, allValue⟩ :=
        againContinues outcome _ (.binary operator leftPhrase rightPhrase) steps
          derived (by
            rw [symbolSteps] at rightValue
            simp only [Phrase.read, leftValue, rightValue])
      refine ⟨symbolWord ++ (rightWord ++ word), phrase, ?_, ?_, allValue⟩
      · simp only [List.append_assoc, split, rightSplit, symbolSplit]
      · simpa only [List.append_assoc] using allDerived

omit identifiers in
/-- A chain is derived from its first operand and what continues it. -/
theorem readBetween_chain
    (single : ∀ {word phrase}, Derives environment.names below word phrase →
      Derives environment.names category word phrase)
    (outcome : (chain (.staging environment) operators operand again).run start =
      (some value, finish)) :
    ReadBetween environment category start finish value := by
  rw [chain, attempt_eq_some_iff] at outcome
  obtain ⟨left, afterLeft, leftRead, outcome⟩ := bind_eq_some_iff.mp outcome
  obtain ⟨leftWord, leftPhrase, leftSplit, leftDerived, leftValue⟩ :=
    operandReads leftRead
  obtain ⟨word, phrase, split, derived, phraseValue⟩ :=
    continuedBetween_more operandReads againContinues grouped outcome
      leftWord leftPhrase start.steps (single leftDerived) leftValue
  refine ⟨leftWord ++ word, phrase, ?_, derived, phraseValue⟩
  rw [List.append_assoc, split, leftSplit]

end

/-- The rules of calculations pass on that values can be derived. -/
theorem sound_rulesOver
    (proper : Satisfy entries (Proper (Appends environment.names)))
    (sound : Satisfy entries (Sound environment)) :
    Satisfy
      (rulesOver (.staging environment) (factor (.staging environment)) entries)
      (Sound environment) := by
  have factorReads {start finish value} :=
    @readBetween_factor _ _ start finish value identifiers proper sound
  have moreFactors {left start finish value} :=
    sound (.moreFactors left) start value finish
  have moreTerms {left start finish value} :=
    sound (.moreTerms left) start value finish
  have productReads {start finish value}
      (outcome : (product (.staging environment)
        (factor (.staging environment) entries) entries).run start =
          (some value, finish)) :
      ReadBetween environment .product start finish value :=
    readBetween_chain factorReads moreFactors .moreFactors .oneFactor outcome
  intro entry start value finish outcome
  cases entry with
  | sum =>
      exact readBetween_chain productReads moreTerms .moreTerms .oneTerm outcome
  | factor => exact factorReads outcome
  | moreTerms left =>
      exact continuedBetween_more productReads moreTerms .moreTerms outcome
  | moreFactors left =>
      exact continuedBetween_more factorReads moreFactors .moreFactors outcome

/-- All parts of a calculation read only what is derived. -/
theorem sound_calculations :
    Satisfy (calculations (.staging environment)) (Sound environment) :=
  satisfy_calculations (reversible_staging environment)
    (fun entry state => by simp [Sound])
    fun _ => sound_rulesOver identifiers

/-! ## Statements -/

section

variable
  (proper : Satisfy entries (Proper (Appends environment.names)))
  (sound : Satisfy entries (Sound environment))
include sound

omit identifiers in
theorem readBetween_completeSum
    (outcome : (completeSum (.staging environment) entries).run start =
      (some value, finish)) :
    ReadBetween environment .sum start finish value ∧
      Token.atEnd finish.rest = true := by
  rw [completeSum, attempt_eq_some_iff] at outcome
  simp only [bind_eq_some_iff, Rule.run_pure, Prod.mk.injEq,
    Option.some.injEq] at outcome
  obtain ⟨sum, afterSum, sumRead, _, _, ended, rfl, rfl⟩ := outcome
  obtain ⟨atEnd, rfl⟩ := endOfText_eq_some_iff.mp ended
  exact ⟨sound .sum start sum _ sumRead, atEnd⟩

omit identifiers in
/-- The rest of an assignment takes its symbol and a sum up to the end of the
text. -/
theorem exists_words_of_assigned
    {reader : Token.Reader Unit}
    {spelling : List Char}
    {build : Expr → Expr}
    (reads : ∀ {start finish : State (List StagedStep)},
      (token reader).run start = (some (), finish) →
        finish.steps = start.steps ∧
          ∃ word, Token.Written spelling word ∧ word ++ finish.rest = start.rest)
    (outcome : (attempt (.staging environment) (do
      token reader
      let assigned ← completeSum (.staging environment) entries
      pure (build assigned))).run start = (some value, finish)) :
    Token.atEnd finish.rest = true ∧
      ∃ symbolWord valueWord phrase assigned,
        symbolWord ++ (valueWord ++ finish.rest) = start.rest ∧
        Token.Written spelling symbolWord ∧
        Derives environment.names .sum valueWord phrase ∧
        phrase.read environment start.steps = (assigned, finish.steps) ∧
        build assigned = value := by
  obtain ⟨afterSymbol, assigned, symbolRead, sumRead, built⟩ :=
    assigned_eq_some_iff.mp outcome
  obtain ⟨symbolSteps, symbolWord, symbolWritten, symbolSplit⟩ :=
    reads symbolRead
  obtain ⟨⟨valueWord, phrase, valueSplit, derived, phraseValue⟩, atEnd⟩ :=
    readBetween_completeSum sound sumRead
  refine ⟨atEnd, symbolWord, valueWord, phrase, assigned, ?_, symbolWritten,
    derived, symbolSteps ▸ phraseValue, built⟩
  rw [valueSplit, symbolSplit]

include proper

omit identifiers in
theorem readBetween_assignment
    (outcome : (assignment (.staging environment) entries).run start =
      (some value, finish)) :
    ReadBetween environment .statement start finish value ∧
      Token.atEnd finish.rest = true := by
  obtain ⟨target, afterTarget, targetRead, goesOn⟩ :=
    exists_parts_of_assignment (reversible_staging environment) proper outcome
  obtain ⟨targetSteps, isIdentifier, targetWord, targetWritten, targetSplit⟩ :=
    exists_word_of_identifier targetRead
  rcases goesOn with plain | ⟨bound, operator, found⟩
  · obtain ⟨atEnd, symbolWord, valueWord, phrase, assigned, split,
      symbolWritten, derived, phraseValue, rfl⟩ :=
        exists_words_of_assigned sound exists_word_of_character plain
    rw [targetSteps] at phraseValue
    refine ⟨⟨_, .assignment target phrase, ?_, .assignment isIdentifier
      targetWritten symbolWritten derived, ?_⟩, atEnd⟩
    · simp only [List.append_assoc, split, targetSplit]
    · simp only [Phrase.read, phraseValue]
  · obtain ⟨atEnd, symbolWord, valueWord, phrase, assigned, split,
      symbolWritten, derived, phraseValue, rfl⟩ :=
        exists_words_of_assigned sound exists_word_of_literal found
    rw [targetSteps] at phraseValue
    refine ⟨⟨_, .operatorAssignment target operator phrase, ?_,
      .operatorAssignment isIdentifier
        (Environment.mem_namesByLength.mp bound) targetWritten symbolWritten
        derived, ?_⟩, atEnd⟩
    · simp only [List.append_assoc, split, targetSplit]
    · simp only [Phrase.read, phraseValue]

omit identifiers in
/-- A statement that is read is derived and takes up the text. -/
theorem readBetween_statement
    (outcome : (statement (.staging environment) entries).run start =
      (some value, finish)) :
    ReadBetween environment .statement start finish value ∧
      Token.atEnd finish.rest = true := by
  have atomic := isAtomic_assignment (reversible_staging environment) proper
  rcases atomic.orElse_eq_some outcome with assignment | calculation
  · exact readBetween_assignment proper sound assignment
  · obtain ⟨⟨word, phrase, split, derived, phraseValue⟩, atEnd⟩ :=
      readBetween_completeSum sound calculation
    exact ⟨⟨word, phrase, split, .calculation derived, phraseValue⟩, atEnd⟩

end

/-- A statement that is read is the value of a phrase that the text derives. -/
theorem exists_derivesText_of_parse?
    {text : String}
    {statement : Statement}
    (parsed : Statement.parse? text environment = some statement) :
    ∃ phrase, DerivesText environment.names text.toList phrase ∧
      phrase.read environment [] = (statement.root, statement.steps) := by
  have proper := proper_calculations (reversible_staging environment)
  have sound := sound_calculations identifiers
  obtain ⟨rest, outcome⟩ := Statement.parse?_eq_some_iff.mp parsed
  obtain ⟨⟨word, phrase, split, derived, phraseValue⟩, atEnd⟩ :=
    readBetween_statement proper sound outcome
  refine ⟨phrase, ⟨word, rest, derived, ?_, split⟩, phraseValue⟩
  simpa [Token.atEnd, skipBlanks] using atEnd

end

end Grammar

end LineCalculator
