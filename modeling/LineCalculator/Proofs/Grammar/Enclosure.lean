import LineCalculator.Proofs.Grammar.SpacedReading
import LineCalculator.Proofs.Token.Closing

/-!
# Sums in front of a closing parenthesis

A sum that is read up to some point of a text is read in the same way when a
closing parenthesis is put behind the text. The parenthesis may bring back an
alternative that failed for want of it, a group or a call or the exponent of a
power; but what was read instead of that alternative leaves an opening
parenthesis or a caret, where no sum goes on.
-/

namespace LineCalculator

namespace Grammar

open Token (first? IgnoresClose Stops)

/-- The state with a closing parenthesis and a further text behind its text. -/
def State.enclosed (after : List Char) (state : State σ) : State σ :=
  { state with rest := state.rest ++ ')' :: after }

/-- A text with an opening parenthesis or a caret in front, where nothing of a
sum goes on. -/
def Stuck (text : List Char) : Prop :=
  first? text = some '(' ∨ first? text = some '^'

/-- A rule for which a closing parenthesis behind the text makes no
difference. -/
def Rule.IgnoresClose (rule : Rule σ α) : Prop :=
  ∀ start after, rule.run (start.enclosed after) =
    ((rule.run start).1, (rule.run start).2.enclosed after)

variable
  {scope : Scope σ}
  {start finish : State σ}
  {after : List Char}

/-! ## Rules that do not look for the parenthesis -/

theorem ignoresClose_pure (value : α) :
    (pure value : Rule σ α).IgnoresClose :=
  fun _ _ => rfl

theorem ignoresClose_token
    {reader : Token.Reader α}
    (ignores : Token.IgnoresClose reader) :
    (token reader : Rule σ α).IgnoresClose := by
  intro start after
  rw [run_token, run_token, State.enclosed, ignores, Token.behind]
  rcases reader start.rest with _ | ⟨value, rest⟩ <;> rfl

/-- One rule behind another does not look for the parenthesis when neither of
the two does. -/
theorem Rule.IgnoresClose.bind
    {first : Rule σ α}
    {next : α → Rule σ β}
    (firstIgnores : first.IgnoresClose)
    (nextIgnores : ∀ value, (next value).IgnoresClose) :
    (first >>= next).IgnoresClose := by
  intro start after
  rw [Rule.run_bind, Rule.run_bind, firstIgnores]
  rcases first.run start with ⟨_ | value, middle⟩
  · rfl
  · exact nextIgnores value middle after

theorem Rule.IgnoresClose.attempt
    {rule : Rule σ α}
    (ignores : rule.IgnoresClose) :
    (attempt scope rule).IgnoresClose := by
  intro start after
  rw [run_attempt, run_attempt, ignores]
  rcases rule.run start with ⟨_ | value, middle⟩ <;> rfl

theorem Rule.IgnoresClose.map
    {rule : Rule σ α}
    (ignores : rule.IgnoresClose)
    (change : α → β) :
    (change <$> rule).IgnoresClose := by
  rw [map_eq_pure_bind]
  exact ignores.bind fun value => ignoresClose_pure (change value)

theorem Rule.IgnoresClose.orElse
    {first second : Rule σ α}
    (firstIgnores : first.IgnoresClose)
    (secondIgnores : second.IgnoresClose) :
    (first <|> second).IgnoresClose := by
  intro start after
  rw [Rule.run_orElse, Rule.run_orElse, firstIgnores]
  rcases first.run start with ⟨_ | value, middle⟩
  · exact secondIgnores middle after
  · rfl

/-- A rule that does not look for a parenthesis reads the same in front of
one. -/
theorem Rule.IgnoresClose.run_enclosed
    {rule : Rule σ α}
    {value : α}
    (ignores : rule.IgnoresClose)
    (outcome : rule.run start = (some value, finish)) :
    rule.run (start.enclosed after) = (some value, finish.enclosed after) := by
  rw [ignores, outcome]

theorem Rule.IgnoresClose.misses_enclosed
    {rule : Rule σ α}
    (ignores : rule.IgnoresClose)
    (misses : rule.Misses start) :
    rule.Misses (start.enclosed after) := by
  intro value finish outcome
  rw [ignores] at outcome
  exact misses value (rule.run start).2
    (Prod.ext (Prod.mk.inj outcome).1 rfl)

theorem run_character_enclosed
    {expected : Char}
    (notClose : expected ≠ ')')
    (outcome : (token (Token.character expected)).run start =
      (some (), finish)) :
    (token (Token.character expected)).run (start.enclosed after) =
      (some (), finish.enclosed after) :=
  (ignoresClose_token (Token.ignoresClose_character notClose)).run_enclosed
    outcome

/-- The parenthesis behind a text is not the one that closes a group in it. -/
theorem run_close_enclosed
    (outcome : (token (Token.character ')')).run start = (some (), finish)) :
    (token (Token.character ')')).run (start.enclosed after) =
      (some (), finish.enclosed after) := by
  obtain ⟨read, steps⟩ := token_eq_some_iff.mp outcome
  have split := Token.character_eq_some_iff.mp read
  refine token_eq_some_iff.mpr ⟨Token.character_eq_some_iff.mpr ?_, steps⟩
  rw [State.enclosed, State.enclosed, Token.skipBlanks_append_close, ← split,
    List.cons_append]

/-- A closing parenthesis can be read, so nothing is stuck in front of it. -/
theorem not_stuck_of_close
    (outcome : (token (Token.character ')')).run start = (some (), finish)) :
    ¬ Stuck start.rest := by
  have split := Token.character_eq_some_iff.mp (token_eq_some_iff.mp outcome).1
  simp [Stuck, first?, ← split]

/-- Where one of the operators of sums and products is next a sum goes on. -/
theorem not_stuck_of_operator
    {operators : List Operator}
    {operator : Operator}
    {text rest : List Char}
    (subset : operators ⊆ joining)
    (read : Token.anyOf Operator.symbol operators text =
      some (operator, rest)) :
    ¬ Stuck text := by
  have split := Token.split_of_anyOf read
  have member := subset (Token.mem_of_anyOf read)
  simp only [Stuck, first?, ← split, operator.symbol_toList, List.cons_append,
    List.head?_cons, Option.some.injEq]
  revert member
  cases operator <;> decide

theorem ignoresClose_stepSymbol :
    (stepSymbol : Rule σ Step).IgnoresClose := by
  refine ignoresClose_token (Token.ignoresClose_anyOf ?_)
  intro step _
  cases step <;> decide

theorem ignoresClose_functionName :
    (token (Token.anyOf MathFunction.name MathFunction.all) :
      Rule σ MathFunction).IgnoresClose := by
  refine ignoresClose_token (Token.ignoresClose_anyOf ?_)
  intro function _
  cases function <;> decide

theorem ignoresClose_operator (operators : List Operator) :
    Token.IgnoresClose (Token.anyOf Operator.symbol operators) := by
  refine Token.ignoresClose_anyOf ?_
  intro operator _
  cases operator <;> decide

/-- A name or a numeral. -/
theorem ignoresClose_atom :
    (Expr.var <$> token Token.identifier <|>
      Expr.literal <$> token Token.number : Rule σ Expr).IgnoresClose :=
  ((ignoresClose_token Token.ignoresClose_identifier).map Expr.var).orElse
    ((ignoresClose_token Token.ignoresClose_number).map Expr.literal)

section

variable (noClose : ∀ name ∈ scope.names, ')' ∉ name.toList)
include noClose

theorem ignoresClose_knownName : (knownName scope).IgnoresClose :=
  ignoresClose_token (Token.ignoresClose_anyOf noClose)

theorem ignoresClose_stepBefore : (stepBefore scope).IgnoresClose := by
  refine (ignoresClose_stepSymbol.bind fun step => ?_).attempt
  refine (ignoresClose_knownName noClose).bind fun name => ?_
  exact fun start after => rfl

theorem ignoresClose_stepAfter : (stepAfter scope).IgnoresClose := by
  refine ((ignoresClose_knownName noClose).bind fun name => ?_).attempt
  exact ignoresClose_stepSymbol.bind fun step => ignoresClose_pure _

end

/-! ## Results in front of a parenthesis -/

/-- Whether an entry can be taken where nothing of a sum goes on. The rest of a
sum or product then has only what stands to the left of it. -/
def Entry.StartsAt : Entry → List Char → Prop
  | .sum, _ | .factor, _ => True
  | .moreTerms _, text | .moreFactors _, text => ¬ Stuck text

/-- The value of an entry that does not leave a text where nothing of a sum goes
on is also found in front of a closing parenthesis. -/
def Enclosable
    (environment : Environment)
    (after : List Char) : ResultProperty (List StagedStep) :=
  fun entry start result => ∀ value finish, result = (some value, finish) →
    ¬ Stuck finish.rest →
    entry.StartsAt start.rest ∧
      (stagedEntries environment entry).run (start.enclosed after) =
        (some value, finish.enclosed after)

variable
  {environment : Environment}
  {entries : Entries (List StagedStep)}
  {start finish : State (List StagedStep)}
  {value : Expr}

section

variable (enclosable : Satisfy entries (Enclosable environment after))
include enclosable

/-- What stands in parentheses is read in front of a further one as at the
end. -/
theorem run_parentheses_enclosed
    (build : Expr → Expr)
    (outcome : Rule.run (do
      token (Token.character '(')
      let inner ← entries .sum
      token (Token.character ')')
      pure (build inner)) start = (some value, finish)) :
    Rule.run (do
      token (Token.character '(')
      let inner ← stagedEntries environment .sum
      token (Token.character ')')
      pure (build inner)) (start.enclosed after) =
        (some value, finish.enclosed after) := by
  obtain ⟨_, afterOpen, openRead, outcome⟩ := bind_eq_some_iff.mp outcome
  obtain ⟨inner, afterInner, innerRead, outcome⟩ := bind_eq_some_iff.mp outcome
  obtain ⟨_, afterClose, closeRead, built⟩ := bind_eq_some_iff.mp outcome
  obtain ⟨-, innerEnclosed⟩ := enclosable .sum afterOpen inner afterInner
    innerRead (not_stuck_of_close closeRead)
  refine bind_eq_some_iff.mpr
    ⟨(), _, run_character_enclosed (by decide) openRead, ?_⟩
  refine bind_eq_some_iff.mpr ⟨inner, _, innerEnclosed, ?_⟩
  refine bind_eq_some_iff.mpr ⟨(), _, run_close_enclosed closeRead, ?_⟩
  exact (ignoresClose_pure _).run_enclosed built

theorem run_group_enclosed
    (outcome : (group (.staging environment) entries).run start =
      (some value, finish)) :
    (group (.staging environment) (stagedEntries environment)).run
      (start.enclosed after) = (some value, finish.enclosed after) :=
  attempt_eq_some_iff.mpr (run_parentheses_enclosed enclosable id
    (attempt_eq_some_iff.mp outcome))

/-- A call is read in front of a parenthesis as at the end. -/
theorem run_call_enclosed
    (outcome : (call (.staging environment) entries).run start =
      (some value, finish)) :
    (call (.staging environment) (stagedEntries environment)).run
      (start.enclosed after) = (some value, finish.enclosed after) := by
  obtain ⟨function, afterName, nameRead, outcome⟩ :=
    bind_eq_some_iff.mp (attempt_eq_some_iff.mp outcome)
  exact attempt_eq_some_iff.mpr (bind_eq_some_iff.mpr
    ⟨function, _, ignoresClose_functionName.run_enclosed nameRead,
      run_parentheses_enclosed enclosable _ outcome⟩)

end

section

variable
  (identifiers : ∀ name ∈ environment.names, Token.IsIdentifier name.toList)
include identifiers

/-- No bound name has a closing parenthesis in it. -/
theorem not_mem_close_of_mem_names
    (name : String)
    (member : name ∈ (Scope.staging environment).names) :
    ')' ∉ name.toList := by
  intro isClose
  have bound : name ∈ environment.names :=
    Environment.mem_namesByLength.mp member
  exact absurd ((identifiers name bound).isAlphanum isClose) (by decide)

theorem run_function_enclosed
    (enclosable : Satisfy entries (Enclosable environment after))
    (outcome : (function (.staging environment) entries).run start =
      (some value, finish)) :
    (function (.staging environment) (stagedEntries environment)).run
      (start.enclosed after) = (some value, finish.enclosed after) := by
  have reversible := reversible_staging environment
  have noClose := not_mem_close_of_mem_names identifiers
  have before := isAtomic_stepBefore reversible
  have behind := isAtomic_stepAfter reversible
  rcases before.orElse_eq_some_iff.mp outcome with
    stepRead | ⟨beforeMisses, outcome⟩
  · exact Rule.orElse_eq_some_of_first
      ((ignoresClose_stepBefore noClose).run_enclosed stepRead)
  refine before.orElse_eq_some_iff.mpr (.inr
    ⟨(ignoresClose_stepBefore noClose).misses_enclosed beforeMisses, ?_⟩)
  rcases behind.orElse_eq_some_iff.mp outcome with
    stepRead | ⟨behindMisses, callRead⟩
  · exact Rule.orElse_eq_some_of_first
      ((ignoresClose_stepAfter noClose).run_enclosed stepRead)
  · exact behind.orElse_eq_some_iff.mpr (.inr
      ⟨(ignoresClose_stepAfter noClose).misses_enclosed behindMisses,
        run_call_enclosed enclosable callRead⟩)

end

/-- Where an operand is read and no opening parenthesis follows it, the closing
one does not bring back a call. -/
theorem call_misses_enclosed
    (proper : Satisfy entries (Proper (Appends environment.names)))
    (notOpen : first? finish.rest ≠ some '(')
    (outcome : (operand (.staging environment) entries).run start =
      (some value, finish)) :
    (call (.staging environment) (stagedEntries environment)).Misses
      (start.enclosed after) := by
  have reversible := reversible_staging environment
  have misses_of_first (head : Char)
      (isHead : first? start.rest = some head)
      (notAlpha : head.isAlpha = false) :
      (call (.staging environment) (stagedEntries environment)).Misses
        (start.enclosed after) := by
    apply call_misses_of_first
    rw [Token.first?_append_close, isHead]
    rintro _ ⟨⟩
    exact notAlpha
  rcases (isAtomic_group reversible proper).orElse_eq_some outcome with
    groupRead | outcome
  · obtain ⟨_, middle, openRead, -⟩ :=
      bind_eq_some_iff.mp (attempt_eq_some_iff.mp groupRead)
    have split :=
      Token.character_eq_some_iff.mp (token_eq_some_iff.mp openRead).1
    exact misses_of_first '(' (by simp [first?, ← split]) (by decide)
  rcases (isAtomic_var reversible).orElse_eq_some outcome with
    nameRead | numberRead
  · obtain ⟨name, nameRead, -⟩ := map_eq_some_iff.mp nameRead
    obtain ⟨isIdentifier, stops, split⟩ :=
      Token.identifier_eq_some_iff.mp (token_eq_some_iff.mp nameRead).1
    obtain ⟨word, written, split⟩ := Token.exists_written split
    have misses : (call (.staging environment) (stagedEntries environment)).Misses
        ⟨word ++ (finish.rest ++ ')' :: after), start.steps⟩ :=
      call_misses_of_name isIdentifier written
        (Token.stops_append_close stops after)
        (Token.first?_append_close_ne notOpen (by decide) after)
    rwa [← List.append_assoc, split] at misses
  · obtain ⟨number, numberRead, -⟩ := map_eq_some_iff.mp numberRead
    obtain ⟨numeral, wellFormed, -, split⟩ :=
      Token.exists_numeral_of_number (token_eq_some_iff.mp numberRead).1
    obtain ⟨head, isHead, digit⟩ := wellFormed.exists_first
    refine misses_of_first head ?_ (isAlpha_eq_false_of_isDigit digit)
    rw [first?, ← split, List.head?_append, isHead]
    rfl

/-- Neither a name nor a numeral starts with the parenthesis of a group. -/
theorem not_open_of_atom
    (environment : Environment)
    (outcome : (Expr.var <$> token Token.identifier <|>
      Expr.literal <$> token Token.number).run start = (some value, finish)) :
    first? start.rest ≠ some '(' := by
  intro isOpen
  rcases (isAtomic_var (reversible_staging environment)).orElse_eq_some outcome
    with nameRead | numberRead
  · obtain ⟨name, nameRead, -⟩ := map_eq_some_iff.mp nameRead
    have noName : Token.identifier start.rest = none :=
      Token.identifier_eq_none (by rw [isOpen]; rintro _ ⟨⟩; decide)
    simp [token_eq_some_iff, noName] at nameRead
  · obtain ⟨number, numberRead, -⟩ := map_eq_some_iff.mp numberRead
    have noNumber : Token.number start.rest = none :=
      Token.number_eq_none (by rw [isOpen]; rintro _ ⟨⟩; decide)
    simp [token_eq_some_iff, noNumber] at numberRead

section

variable
  (proper : Satisfy entries (Proper (Appends environment.names)))
  (enclosable : Satisfy entries (Enclosable environment after))
include proper enclosable

theorem run_operand_enclosed
    (outcome : (operand (.staging environment) entries).run start =
      (some value, finish)) :
    (operand (.staging environment) (stagedEntries environment)).run
      (start.enclosed after) = (some value, finish.enclosed after) := by
  have reversible := reversible_staging environment
  have groupAtomic :=
    isAtomic_group reversible (proper_calculations reversible)
  rcases (isAtomic_group reversible proper).orElse_eq_some outcome with
    groupRead | atomRead
  · exact Rule.orElse_eq_some_of_first (run_group_enclosed enclosable groupRead)
  · have notOpen := not_open_of_atom environment atomRead
    refine groupAtomic.orElse_eq_some_iff.mpr
      (.inr ⟨group_misses ?_, ignoresClose_atom.run_enclosed atomRead⟩)
    exact Token.first?_append_close_ne notOpen (by decide) after

variable
  (identifiers : ∀ name ∈ environment.names, Token.IsIdentifier name.toList)
include identifiers

/-- A factor behind which something of a sum can go on is read as before: the
power and the call that failed do not come back, as a call could only come back
where a parenthesis opens behind the operand. -/
theorem run_factor_enclosed
    (outcome : (factor (.staging environment) entries).run start =
      (some value, finish))
    (notStuck : ¬ Stuck finish.rest) :
    (stagedFactor environment).run (start.enclosed after) =
      (some value, finish.enclosed after) := by
  have reversible := reversible_staging environment
  have allProper := proper_calculations reversible
  have noClose := not_mem_close_of_mem_names identifiers
  rcases (isAtomic_function reversible proper).orElse_eq_some_iff.mp outcome with
    functionRead | ⟨functionMisses, outcome⟩
  · exact Rule.orElse_eq_some_of_first
      (run_function_enclosed identifiers enclosable functionRead)
  obtain ⟨base, middle, baseRead, outcome⟩ := bind_eq_some_iff.mp outcome
  obtain ⟨beforeMisses, functionMisses⟩ :=
    (isAtomic_stepBefore reversible).misses_of_orElse functionMisses
  obtain ⟨behindMisses, -⟩ :=
    (isAtomic_stepAfter reversible).misses_of_orElse functionMisses
  have function_misses_enclosed (notOpen : first? middle.rest ≠ some '(') :
      (function (.staging environment) (stagedEntries environment)).Misses
        (start.enclosed after) :=
    function_misses
      ((ignoresClose_stepBefore noClose).misses_enclosed beforeMisses)
      ((ignoresClose_stepAfter noClose).misses_enclosed behindMisses)
      (call_misses_enclosed proper notOpen baseRead)
  have functionAtomic := isAtomic_function reversible allProper
  have baseEnclosed := run_operand_enclosed proper enclosable baseRead
  rcases (isAtomic_power reversible proper base).orElse_eq_some_iff.mp outcome
    with powerRead | ⟨-, alone⟩
  · obtain ⟨_, afterCaret, caretRead, powerRead⟩ :=
      bind_eq_some_iff.mp (attempt_eq_some_iff.mp powerRead)
    obtain ⟨exponent, afterExponent, exponentRead, built⟩ :=
      bind_eq_some_iff.mp powerRead
    simp only [Rule.run_pure, Prod.mk.injEq, Option.some.injEq] at built
    obtain ⟨rfl, rfl⟩ := built
    have split :=
      Token.character_eq_some_iff.mp (token_eq_some_iff.mp caretRead).1
    obtain ⟨-, exponentEnclosed⟩ :=
      enclosable .factor afterCaret exponent _ exponentRead notStuck
    refine functionAtomic.orElse_eq_some_iff.mpr (.inr
      ⟨function_misses_enclosed (by simp [first?, ← split]),
        bind_eq_some_iff.mpr ⟨base, _, baseEnclosed,
          Rule.orElse_eq_some_of_first (attempt_eq_some_iff.mpr ?_)⟩⟩)
    refine bind_eq_some_iff.mpr
      ⟨(), _, run_character_enclosed (by decide) caretRead, ?_⟩
    exact bind_eq_some_iff.mpr ⟨exponent, _, exponentEnclosed, rfl⟩
  · simp only [Rule.run_pure, Prod.mk.injEq, Option.some.injEq] at alone
    obtain ⟨rfl, rfl⟩ := alone
    obtain ⟨notOpen, notCaret⟩ := not_or.mp notStuck
    have powerMisses : (power (.staging environment)
        (stagedEntries environment) base).Misses (middle.enclosed after) :=
      power_misses (Token.first?_append_close_ne notCaret (by decide) after)
    refine functionAtomic.orElse_eq_some_iff.mpr (.inr
      ⟨function_misses_enclosed notOpen,
        bind_eq_some_iff.mpr ⟨base, _, baseEnclosed, ?_⟩⟩)
    exact (isAtomic_power reversible allProper base).orElse_eq_some_iff.mpr
      (.inr ⟨powerMisses, rfl⟩)

end

section

variable
  {operators : List Operator}
  {operand allOperand : Rule (List StagedStep) Expr}
  {again allAgain : Expr → Rule (List StagedStep) Expr}
  (subset : operators ⊆ joining)
  (operandEnclosed : ∀ {start finish value},
    operand.run start = (some value, finish) → ¬ Stuck finish.rest →
      allOperand.run (start.enclosed after) =
        (some value, finish.enclosed after))
  (againEnclosed : ∀ left {start finish value},
    (again left).run start = (some value, finish) → ¬ Stuck finish.rest →
      ¬ Stuck start.rest ∧ (allAgain left).run (start.enclosed after) =
        (some value, finish.enclosed after))
include subset operandEnclosed againEnclosed

/-- A chain goes on in front of a parenthesis as at the end. What it stops at
is not stuck, so what it starts at is not either. -/
theorem run_more_enclosed
    {left : Expr}
    (outcome : (more operators operand again left).run start =
      (some value, finish))
    (notStuck : ¬ Stuck finish.rest) :
    ¬ Stuck start.rest ∧
      (more operators allOperand allAgain left).run (start.enclosed after) =
        (some value, finish.enclosed after) := by
  have ignores := ignoresClose_operator operators start.rest after
  rcases read : Token.anyOf Operator.symbol operators start.rest with
    _ | ⟨operator, rest⟩
  · rw [run_more_of_none read, Prod.mk.injEq, Option.some.injEq] at outcome
    obtain ⟨rfl, rfl⟩ := outcome
    rw [read] at ignores
    exact ⟨notStuck, run_more_of_none ignores⟩
  · rw [run_more_of_some read] at outcome
    obtain ⟨right, middle, rightRead, outcome⟩ := bind_eq_some_iff.mp outcome
    obtain ⟨middleNotStuck, restEnclosed⟩ := againEnclosed _ outcome notStuck
    rw [read] at ignores
    refine ⟨not_stuck_of_operator subset read, ?_⟩
    rw [run_more_of_some ignores]
    exact bind_eq_some_iff.mpr
      ⟨right, _, operandEnclosed rightRead middleNotStuck, restEnclosed⟩

theorem run_chain_enclosed
    (outcome : (chain (.staging environment) operators operand again).run start =
      (some value, finish))
    (notStuck : ¬ Stuck finish.rest) :
    (chain (.staging environment) operators allOperand allAgain).run
      (start.enclosed after) = (some value, finish.enclosed after) := by
  obtain ⟨left, middle, leftRead, outcome⟩ :=
    bind_eq_some_iff.mp (attempt_eq_some_iff.mp outcome)
  obtain ⟨middleNotStuck, restEnclosed⟩ :=
    run_more_enclosed subset operandEnclosed againEnclosed outcome notStuck
  exact attempt_eq_some_iff.mpr (bind_eq_some_iff.mpr
    ⟨left, _, operandEnclosed leftRead middleNotStuck, restEnclosed⟩)

end

section

variable
  (identifiers : ∀ name ∈ environment.names, Token.IsIdentifier name.toList)
include identifiers

/-- The rules of calculations pass on that values are found in front of a
closing parenthesis. -/
theorem enclosable_rulesOver
    (proper : Satisfy entries (Proper (Appends environment.names)))
    (enclosable : Satisfy entries (Enclosable environment after)) :
    Satisfy
      (rulesOver (.staging environment) (factor (.staging environment)) entries)
      (Enclosable environment after) := by
  have factorEnclosed {start finish value} :=
    @run_factor_enclosed after environment entries start finish value proper
      enclosable identifiers
  have moreFactors (left : Expr) {start finish value} :=
    enclosable (.moreFactors left) start value finish
  have moreTerms (left : Expr) {start finish value} :=
    enclosable (.moreTerms left) start value finish
  have productEnclosed {start finish value}
      (outcome : (product (.staging environment)
        (factor (.staging environment) entries) entries).run start =
          (some value, finish))
      (notStuck : ¬ Stuck finish.rest) :
      (stagedProduct environment).run (start.enclosed after) =
        (some value, finish.enclosed after) :=
    run_chain_enclosed (List.subset_append_right _ _) factorEnclosed
      moreFactors outcome notStuck
  intro entry start value finish outcome notStuck
  rw [stagedEntries, calculations_eq (reversible_staging environment)]
  cases entry with
  | sum =>
      exact ⟨trivial, run_chain_enclosed (List.subset_append_left _ _)
        productEnclosed moreTerms outcome notStuck⟩
  | factor => exact ⟨trivial, factorEnclosed outcome notStuck⟩
  | moreTerms left =>
      exact run_more_enclosed (List.subset_append_left _ _) productEnclosed
        moreTerms outcome notStuck
  | moreFactors left =>
      exact run_more_enclosed (List.subset_append_right _ _) factorEnclosed
        moreFactors outcome notStuck

/-- The parts of a calculation are read in front of a parenthesis as at the
end. -/
theorem enclosable_calculations (after : List Char) :
    Satisfy (calculations (.staging environment))
      (Enclosable environment after) :=
  satisfy_calculations (reversible_staging environment)
    (fun entry state => by simp [Enclosable])
    fun _ => enclosable_rulesOver identifiers

/-- A sum that takes a whole text up to blanks is read in the same way in front
of a closing parenthesis. -/
theorem run_sum_enclosed
    (outcome : (stagedEntries environment .sum).run start =
      (some value, finish))
    (atEnd : Token.atEnd finish.rest = true)
    (after : List Char) :
    (stagedEntries environment .sum).run (start.enclosed after) =
      (some value, finish.enclosed after) := by
  have nothing : skipBlanks finish.rest = [] := by
    simpa [Token.atEnd] using atEnd
  refine (enclosable_calculations identifiers after .sum start value finish
    outcome ?_).2
  simp [Stuck, first?, nothing]

end

end Grammar

end LineCalculator
