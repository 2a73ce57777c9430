import LineCalculator.Proofs.Grammar.SpacedStatement

/-!
# Dead ends

At a dead end a sum can neither go on nor be closed. A rule strands on a text
when it leaves a dead end with every value that it has. The rule for sums
strands where its first factor does, and also behind an operator whose right
operand does. Neither a group nor a call nor a whole statement is found then.
-/

namespace LineCalculator

namespace Grammar

open Token (Written first?)

/-- A text with a character in front that neither joins two factors nor closes a
sum. -/
def DeadEnd (text : List Char) : Prop :=
  ∃ first ∈ first? text, first ≠ ')' ∧
    ∀ operator ∈ joining, first ≠ operator.mark

/-- With every value that a rule has it leaves a dead end. -/
def Rule.Strands (rule : Rule σ α) (text : List Char) : Prop :=
  ∀ steps value finish,
    rule.run ⟨text, steps⟩ = (some value, finish) → DeadEnd finish.rest

variable
  {operators : List Operator}
  {operator : Operator}
  {text rest : List Char}

namespace DeadEnd

theorem close_eq_none (dead : DeadEnd text) :
    Token.character ')' text = none := by
  obtain ⟨first, isFirst, notClose, -⟩ := dead
  exact Token.character_eq_none fun isClose =>
    notClose (Option.mem_unique isFirst isClose)

/-- There is no operator at a dead end. -/
theorem operatorSymbol_eq_none
    (dead : DeadEnd text)
    (subset : operators ⊆ joining) :
    Token.anyOf Operator.symbol operators text = none := by
  obtain ⟨first, isFirst, -, noOperator⟩ := dead
  apply Token.anyOf_eq_none
  intro operator member isMark
  rw [operator.symbol_toList] at isMark
  exact noOperator operator (subset member) (Option.mem_unique isFirst isMark)

end DeadEnd

section

variable
  {scope : Scope σ}
  {Extends : σ → σ → Prop}
  {first second rule : Rule σ α}

/-- A rule that finds nothing strands. -/
theorem strands_of_misses (misses : ∀ steps, rule.Misses ⟨text, steps⟩) :
    rule.Strands text :=
  fun steps value finish outcome => absurd outcome (misses steps value finish)

theorem strands_pure
    (dead : DeadEnd text)
    (value : α) :
    (pure value : Rule σ α).Strands text := by
  intro steps found finish outcome
  obtain ⟨-, rfl⟩ := Prod.mk.inj outcome
  exact dead

/-- A rule strands when it leads to a place where what remains of it
strands. -/
theorem Rule.LeadsTo.strands
    (leads : first.LeadsTo text second rest)
    (strands : second.Strands rest) :
    first.Strands text :=
  fun steps value finish outcome =>
    strands steps value finish ((leads steps).symm.trans outcome)

/-- One rule behind another strands when the first one does and the second one
does at every dead end. -/
theorem Rule.Strands.bind
    {next : α → Rule σ β}
    (strands : first.Strands text)
    (later : ∀ value rest, DeadEnd rest → (next value).Strands rest) :
    (first >>= next).Strands text := by
  intro steps value finish outcome
  obtain ⟨between, middle, firstOutcome, lastOutcome⟩ :=
    bind_eq_some_iff.mp outcome
  have dead := strands steps between middle firstOutcome
  exact later between middle.rest dead middle.steps value finish lastOutcome

theorem Rule.Strands.attempt (strands : rule.Strands text) :
    (attempt scope rule).Strands text :=
  fun steps value finish outcome =>
    strands steps value finish (attempt_eq_some_iff.mp outcome)

/-- A choice strands when both rules do and the first one takes nothing when it
fails. -/
theorem Rule.IsAtomic.orElse_strands
    (atomic : first.IsAtomic Extends)
    (firstStrands : first.Strands text)
    (secondStrands : second.Strands text) :
    (first <|> second).Strands text := by
  intro steps value finish outcome
  rcases atomic.orElse_eq_some outcome with here | later
  · exact firstStrands steps value finish here
  · exact secondStrands steps value finish later

end

section

variable
  {operand : Rule σ Expr}
  {again : Expr → Rule σ Expr}

/-- There is nothing more at a dead end. -/
theorem more_strands
    (subset : operators ⊆ joining)
    (dead : DeadEnd text)
    (left : Expr) :
    (more operators operand again left).Strands text :=
  (more_reads_of_none (dead.operatorSymbol_eq_none subset)).strands
    (strands_pure dead left)

/-- What goes on behind an operator strands when its right side does. -/
theorem more_strands_behind
    (member : operator ∈ operators)
    (againStrands : ∀ left rest, DeadEnd rest → (again left).Strands rest)
    (operandStrands : operand.Strands (' ' :: text ++ rest))
    (left : Expr) :
    (more operators operand again left).Strands
      (operator.between ++ (text ++ rest)) := by
  intro steps value finish outcome
  have read := operatorSymbol_between member (text ++ rest)
  rw [run_more_of_some read] at outcome
  exact operandStrands.bind (fun right => againStrands _) steps value finish
    outcome

end

variable
  {environment : Environment}
  {steps : List StagedStep}
  {leftText rightText word : List Char}
  {left : Expr}

/-- A round ends at a dead end. -/
theorem Round.entry_strands
    (round : Round)
    (left : Expr)
    (rest : List Char)
    (dead : DeadEnd rest) :
    (stagedEntries environment (round.entry left)).Strands rest := by
  rw [stagedEntries_round]
  exact more_strands round.operators_subset_joining dead left

/-- A whole round strands where its first operand does. -/
theorem Round.whole_strands
    (round : Round)
    (strands : (round.operand environment).Strands text) :
    (round.whole environment).Strands text := by
  rw [round.whole_eq]
  exact (strands.bind round.entry_strands).attempt

/-- A sum strands where its first factor does. -/
theorem sum_strands (strands : (stagedFactor environment).Strands text) :
    (stagedEntries environment .sum).Strands text :=
  Round.terms.whole_strands (Round.factors.whole_strands strands)

/-- Behind a base the rule for factors leaves what the exponent leaves, or the
caret. -/
theorem factor_strands_behind
    (baseReads : ReadsSpaced environment .operand leftText left)
    (strands : (stagedFactor environment).Strands (' ' :: rightText ++ rest)) :
    (stagedFactor environment).Strands
      (leftText ++
        (Operator.exponentiation.between ++ (rightText ++ rest))) := by
  have reversible := reversible_staging environment
  have proper := proper_calculations reversible
  have caretWritten := Token.written_behind_space ['^']
  have caretRead := reads_token (σ := List StagedStep)
    (caretWritten.character_append (by decide) (' ' :: rightText ++ rest))
  have caretIsDead :
      DeadEnd (Operator.exponentiation.between ++ (rightText ++ rest)) :=
    ⟨'^', first?_between _ _, by decide, by decide⟩
  obtain ⟨functionMisses, baseRead⟩ := baseReads leftText
    (Operator.exponentiation.between ++ (rightText ++ rest))
    (Token.written_self leftText) (setOff_between (Operator.mem_all _) _)
  rw [← stagedEntries_factor] at strands
  have powerStrands : (power (.staging environment) (stagedEntries environment)
      left).Strands (Operator.exponentiation.between ++ (rightText ++ rest)) :=
    Rule.Strands.attempt (caretRead.bind.strands
      (strands.bind fun _ _ dead => strands_pure dead _))
  refine (factor_leadsTo_power functionMisses baseRead).strands ?_
  exact (isAtomic_power reversible proper left).orElse_strands powerStrands
    (strands_pure caretIsDead left)

/-- A whole round strands behind one of its operators when the operand there
does. -/
theorem Round.whole_strands_behind
    (round : Round)
    (member : operator ∈ round.operators)
    (leftReads : ReadsSpaced environment round.category leftText left)
    (strands : (round.operand environment).Strands
      (' ' :: rightText ++ rest)) :
    (round.whole environment).Strands
      (leftText ++ (operator.between ++ (rightText ++ rest))) := by
  have leftLeads := leftReads.takes round (Token.written_self leftText)
    (operator.between ++ (rightText ++ rest))
    (setOff_between (List.mem_append_right _ member) _)
  rw [stagedEntries_round environment round left] at leftLeads
  rw [round.whole_eq]
  refine Rule.Strands.attempt (leftLeads.strands ?_)
  exact more_strands_behind member round.entry_strands strands left

/-- The rule for sums strands behind an operator when its right operand does. -/
theorem sum_strands_of_right
    (identifiers : ∀ name ∈ environment.names, Token.IsIdentifier name.toList)
    (operator : Operator)
    (leftSpaced : Spaced environment.names (leftOf operator) leftText left)
    (strands : (stagedFactor environment).Strands (' ' :: rightText ++ rest)) :
    (stagedEntries environment .sum).Strands
      (leftText ++ (operator.between ++ (rightText ++ rest))) := by
  have leftReads := leftSpaced.reads identifiers
  cases operator with
  | addition | subtraction =>
      exact Round.terms.whole_strands_behind (by decide) leftReads
        (Round.factors.whole_strands strands)
  | multiplication | division | modulus =>
      exact Round.terms.whole_strands
        (Round.factors.whole_strands_behind (by decide) leftReads strands)
  | exponentiation =>
      exact sum_strands (factor_strands_behind leftReads strands)

/-- No parenthesis closes a sum at a dead end. -/
theorem enclosed_misses
    {openWord : List Char}
    (build : Expr → Expr)
    (openWritten : Written ['('] openWord)
    (strands : (stagedEntries environment .sum).Strands text) :
    Rule.Misses (do
        token (Token.character '(')
        let inner ← stagedEntries environment .sum
        token (Token.character ')')
        pure (build inner))
      ⟨openWord ++ text, steps⟩ := by
  have openRead := reads_token (σ := List StagedStep)
    (openWritten.character_append (by decide) text)
  refine openRead.bind.misses (misses_bind ?_)
  intro inner middle innerRead
  have dead := strands steps inner middle innerRead
  exact (misses_token dead.close_eq_none).bind

/-- A call is not found when its argument strands. -/
theorem call_misses_of_argument
    {function : MathFunction}
    {openWord : List Char}
    (nameWritten : Written function.name.toList word)
    (openWritten : Written ['('] openWord)
    (strands : (stagedEntries environment .sum).Strands text) :
    (call (.staging environment) (stagedEntries environment)).Misses
      ⟨word ++ (openWord ++ text), steps⟩ := by
  have found := nameWritten.literal_append function.isIdentifier_name.visible
    (openWord ++ text)
  have nameRead := reads_token (σ := List StagedStep)
    (Token.anyOf_eq_some_of_distinct (by decide) function.mem_all found)
  refine (nameRead.bind.misses ?_).attempt
  exact enclosed_misses (.call function.name) openWritten strands

/-- A factor is not found at a parenthesis when the group in it strands. -/
theorem factor_misses_of_group
    (identifiers : ∀ name ∈ environment.names, Token.IsIdentifier name.toList)
    (openWritten : Written ['('] word)
    (strands : (stagedEntries environment .sum).Strands text) :
    (stagedFactor environment).Misses ⟨word ++ text, steps⟩ := by
  have reversible := reversible_staging environment
  have proper := proper_calculations reversible
  have isFirst : first? (word ++ text) = some '(' := by
    rw [openWritten.first?_append ⟨'(', rfl, by decide⟩]
    rfl
  have groupMisses : (group (.staging environment)
      (stagedEntries environment)).Misses ⟨word ++ text, steps⟩ :=
    (enclosed_misses id openWritten strands).attempt
  have operandMisses : (operand (.staging environment)
      (stagedEntries environment)).Misses ⟨word ++ text, steps⟩ := by
    refine operand_misses proper groupMisses ?_ ?_ <;>
      (rw [isFirst]
       rintro _ ⟨⟩
       decide)
  exact (isAtomic_function reversible proper).orElse_misses
    (function_misses_of_first identifiers ⟨'(', isFirst, .inl rfl⟩)
    operandMisses.bind

/-- A sum that strands is not found up to the end of the text. -/
theorem completeSum_misses
    (strands : (stagedEntries environment .sum).Strands text) :
    (completeSum (.staging environment) (stagedEntries environment)).Misses
      ⟨text, steps⟩ := by
  refine (misses_bind ?_).attempt
  intro value middle sumRead
  have dead := strands steps value middle sumRead
  have notEnded : endOfText.Misses middle := by
    intro _ finish outcome
    have atEnd := (endOfText_eq_some_iff.mp outcome).1
    obtain ⟨first, isFirst, -⟩ := dead
    simp [Token.atEnd_eq_false isFirst] at atEnd
  exact notEnded.bind

/-- Nothing follows a step or a call within a factor. -/
theorem factor_strands_of_function
    (reads : ReadsSpaced environment .function leftText left)
    (dead : DeadEnd rest) :
    (stagedFactor environment).Strands (leftText ++ rest) := by
  have functionReads := reads leftText rest (Token.written_self leftText)
  have factorReads : (stagedFactor environment).Reads (leftText ++ rest) left
      rest := functionReads.orElse
  exact factorReads.strands (strands_pure dead left)

/-- In front of a parenthesis or an equals sign a name that starts no call is
read alone. -/
theorem factor_strands_of_name
    {name : String}
    {character : Char}
    (identifiers : ∀ name ∈ environment.names, Token.IsIdentifier name.toList)
    (isIdentifier : Token.IsIdentifier name.toList)
    (written : Written name.toList word)
    (isFirst : first? text = some character)
    (kind : character = '(' ∨ character = '=')
    (callMisses : ∀ steps, (call (.staging environment)
      (stagedEntries environment)).Misses ⟨word ++ text, steps⟩) :
    (stagedFactor environment).Strands (word ++ text) := by
  have reversible := reversible_staging environment
  have proper := proper_calculations reversible
  have dead : DeadEnd text := by
    refine ⟨character, isFirst, ?_⟩
    rcases kind with rfl | rfl <;> decide
  have stops : Token.Stops Char.isAlphanum text := by
    apply Token.stops_of_first?
    rw [isFirst]
    rintro _ ⟨⟩
    rcases kind with rfl | rfl <;> decide
  have noStep : Token.anyOf Step.symbol Step.all text = none := by
    apply stepSymbol_eq_none
    rw [isFirst]
    rintro _ ⟨⟩ step
    rcases kind with rfl | rfl <;> cases step <;> decide
  have noCaret : first? text ≠ some '^' := by
    rw [isFirst]
    rcases kind with rfl | rfl <;> decide
  have functionMisses (steps : List StagedStep) :
      (function (.staging environment) (stagedEntries environment)).Misses
        ⟨word ++ text, steps⟩ :=
    function_misses (stepBefore_misses_of_name isIdentifier written)
      (stepAfter_misses_of_name identifiers isIdentifier written stops
        fun _ => noStep) (callMisses steps)
  have nameReads := operand_reads_name proper isIdentifier written stops
  refine (factor_leadsTo_power functionMisses nameReads).strands ?_
  exact (isAtomic_power reversible proper _).orElse_strands
    (strands_of_misses fun _ => power_misses noCaret) (strands_pure dead _)

end Grammar

end LineCalculator
