import LineCalculator.Proofs.Grammar.Completeness
import LineCalculator.Proofs.Grammar.SpacedText

/-!
# Reading spaced texts

A spaced text is read in one way only: the tree that is read is the one that the
text spells, whatever stands behind the text as long as it does not carry it on.
What the rules for sums and products read may be carried on by an operator, so
for these it is shown how they go on.
-/

namespace LineCalculator

namespace Grammar

open Token (Written first?)

/-! ## Entries and their rules -/

/-- The tied rules of calculations over a session's variables. -/
abbrev stagedEntries (environment : Environment) : Entries (List StagedStep) :=
  calculations (.staging environment)

/-- The rule for factors over the tied rules. -/
abbrev stagedFactor (environment : Environment) : Rule (List StagedStep) Expr :=
  factor (.staging environment) (stagedEntries environment)

/-- The rule for products over the tied rules. -/
abbrev stagedProduct
    (environment : Environment) : Rule (List StagedStep) Expr :=
  product (.staging environment) (stagedFactor environment)
    (stagedEntries environment)

/-- The rounds of a grammar: a product goes round its factors and a sum round its
terms. -/
inductive Round
  | factors
  | terms

namespace Round

/-- The operators between the operands of a round. -/
def operators : Round → List Operator
  | .factors => Operator.multiplicative
  | .terms => Operator.additive

/-- The operators that may follow a whole round. -/
def outerOperators : Round → List Operator
  | .factors => Operator.additive
  | .terms => []

/-- The category of the operands of a round. -/
def operandCategory : Round → Category
  | .factors => .factor
  | .terms => .product

/-- The category of whole rounds. -/
def category : Round → Category
  | .factors => .product
  | .terms => .sum

/-- The entry at which a round goes on. -/
def entry : Round → Expr → Entry
  | .factors => .moreFactors
  | .terms => .moreTerms

/-- The rule for the operands of a round. -/
def operand
    (environment : Environment) : Round → Rule (List StagedStep) Expr
  | .factors => stagedFactor environment
  | .terms => stagedProduct environment

/-- The rule for whole rounds. -/
def whole (environment : Environment) : Round → Rule (List StagedStep) Expr
  | .factors => stagedProduct environment
  | .terms => stagedEntries environment .sum

/-- The operators of a round do not follow it when it is whole. -/
theorem not_mem_outerOperators
    (round : Round)
    {operator : Operator}
    (member : operator ∈ round.operators) :
    operator ∉ round.outerOperators := by
  revert operator
  cases round <;> decide

/-- All operators of rounds join factors. -/
theorem operators_subset_joining (round : Round) :
    round.operators ⊆ joining := by
  cases round with
  | factors => exact List.subset_append_right _ _
  | terms => exact List.subset_append_left _ _

end Round

section

variable (environment : Environment)

/-- The entry for factors is the rule for factors. -/
theorem stagedEntries_factor :
    stagedEntries environment .factor = stagedFactor environment :=
  congrFun (calculations_eq (reversible_staging environment)) .factor

/-- At its entry a round goes on with an operator and an operand, or ends. -/
theorem stagedEntries_round (round : Round) (left : Expr) :
    stagedEntries environment (round.entry left) =
      more round.operators (round.operand environment)
        (stagedEntries environment ∘ round.entry) left := by
  have equations := calculations_eq (reversible_staging environment)
  cases round with
  | factors => exact congrFun equations (.moreFactors left)
  | terms => exact congrFun equations (.moreTerms left)

/-- A whole round is an operand behind which the round goes on. -/
theorem Round.whole_eq (round : Round) :
    round.whole environment = attempt (.staging environment)
      (round.operand environment >>=
        stagedEntries environment ∘ round.entry) := by
  have again : stagedEntries environment ∘ round.entry = _ :=
    funext (stagedEntries_round environment round)
  rw [again]
  cases round with
  | factors => rfl
  | terms =>
      exact congrFun (calculations_eq (reversible_staging environment)) .sum

end

variable
  {operators : List Operator}
  {operator : Operator}
  {text rest : List Char}

section

variable
  {operand : Rule σ Expr}
  {again : Expr → Rule σ Expr}
  {left right : Expr}

/-- A round ends where no operator follows. -/
theorem more_reads_of_none
    (read : Token.anyOf Operator.symbol operators text = none) :
    (more operators operand again left).Reads text left text :=
  fun _ => run_more_of_none read

/-- A round goes on behind an operator and its right operand. -/
theorem more_leadsTo
    (member : operator ∈ operators)
    (operandReads : operand.Reads (' ' :: text ++ rest) right rest) :
    (more operators operand again left).LeadsTo
      (operator.between ++ (text ++ rest))
      (again (.binary operator left right)) rest := by
  intro steps
  rw [run_more_of_some (operatorSymbol_between member (text ++ rest))]
  exact operandReads.bind steps

end

/-! ## Reading spaced texts -/

/-- In front of the rest a round takes a tree from a text, and may go on
there. -/
def Round.Takes
    (environment : Environment)
    (text : List Char)
    (tree : Expr)
    (rest : List Char)
    (round : Round) : Prop :=
  SetOff (round.outerOperators ++ round.operators) rest →
    (round.operand environment >>=
      stagedEntries environment ∘ round.entry).LeadsTo
        text (stagedEntries environment (round.entry tree)) rest

/-- In front of the rest the rule of a category takes a tree from a text. A sum
or product may go on there. -/
def Takes
    (environment : Environment)
    (text : List Char)
    (tree : Expr)
    (rest : List Char) : Category → Prop
  | .function =>
      (function (.staging environment) (stagedEntries environment)).Reads
        text tree rest
  | .operand => SetOff Operator.all rest →
      (∀ steps, (function (.staging environment)
        (stagedEntries environment)).Misses ⟨text, steps⟩) ∧
      (operand (.staging environment) (stagedEntries environment)).Reads
        text tree rest
  | .factor => SetOff joining rest →
      (stagedFactor environment).Reads text tree rest
  | .product => Round.factors.Takes environment text tree rest
  | .sum => Round.terms.Takes environment text tree rest
  | .statement => True

/-- From a text of a category, with blanks in front, the rule of that category
takes a tree and leaves what follows. -/
def ReadsSpaced
    (environment : Environment)
    (category : Category)
    (spelled : List Char)
    (tree : Expr) : Prop :=
  ∀ word rest, Written spelled word →
    Takes environment (word ++ rest) tree rest category

section

variable
  {environment : Environment}
  {spelled word : List Char}
  {tree : Expr}

/-- Of a round, as of every category, the texts are read with blanks in
front. -/
theorem ReadsSpaced.takes
    (round : Round)
    (reads : ReadsSpaced environment round.category spelled tree)
    (written : Written spelled word)
    (rest : List Char) :
    round.Takes environment (word ++ rest) tree rest := by
  have takes := reads word rest written
  cases round <;> exact takes

/-- A whole round is read up to an operator that may follow it. -/
theorem ReadsSpaced.whole_reads
    (round : Round)
    (reads : ReadsSpaced environment round.category spelled tree)
    (written : Written spelled word)
    (setOff : SetOff round.outerOperators rest) :
    (round.whole environment).Reads (word ++ rest) tree rest := by
  have ended : Token.anyOf Operator.symbol round.operators rest = none :=
    setOff.operatorSymbol_eq_none fun _ => round.not_mem_outerOperators
  have leads := reads.takes round written rest
    (setOff.mono (List.subset_append_left _ _))
  rw [stagedEntries_round environment round tree] at leads
  rw [round.whole_eq]
  exact Rule.Reads.attempt (leads.trans (more_reads_of_none ended))

/-- An operand of a round is read up to an operator of the round, or one that may
follow the round. -/
theorem ReadsSpaced.operand_reads
    (round : Round)
    (reads : ReadsSpaced environment round.operandCategory spelled tree)
    (written : Written spelled word)
    (setOff : SetOff (round.outerOperators ++ round.operators) rest) :
    (round.operand environment).Reads (word ++ rest) tree rest := by
  cases round with
  | factors => exact reads word rest written setOff
  | terms => exact whole_reads .factors reads written setOff

/-- An operand of a round is a round of its own. -/
theorem ReadsSpaced.one
    (round : Round)
    (reads : ReadsSpaced environment round.operandCategory spelled tree) :
    ReadsSpaced environment round.category spelled tree := by
  intro word rest written
  have takes : round.Takes environment (word ++ rest) tree rest :=
    fun setOff => (reads.operand_reads round written setOff).bind
  cases round <;> exact takes

/-- A factor is an operand of either round. -/
theorem ReadsSpaced.operand
    (round : Round)
    (reads : ReadsSpaced environment .factor spelled tree) :
    ReadsSpaced environment round.operandCategory spelled tree := by
  cases round with
  | factors => exact reads
  | terms => exact reads.one .factors

/-- A round goes on with an operator and another operand. -/
theorem ReadsSpaced.more
    {left right : Expr}
    {leftText rightText : List Char}
    (round : Round)
    (member : operator ∈ round.operators)
    (leftReads : ReadsSpaced environment round.category leftText left)
    (rightReads : ReadsSpaced environment round.operandCategory rightText
      right) :
    ReadsSpaced environment round.category
      (leftText ++ (operator.between ++ rightText))
      (.binary operator left right) := by
  intro word rest written
  obtain ⟨leftWord, leftWritten, rfl⟩ := written.exists_front
  have takes : round.Takes environment
      (leftWord ++ (operator.between ++ rightText) ++ rest)
      (.binary operator left right) rest := by
    intro setOff
    have rightWritten := Token.written_behind_space rightText
    have leftLeads := leftReads.takes round leftWritten
      (operator.between ++ (rightText ++ rest))
      (setOff_between (List.mem_append_right _ member) _)
    rw [stagedEntries_round environment round left] at leftLeads
    have operandReads := rightReads.operand_reads round rightWritten setOff
    simp only [List.append_assoc]
    exact leftLeads.trans (more_leadsTo member operandReads)
  cases round <;> exact takes

/-- A sum is read up to where it is closed. -/
theorem ReadsSpaced.sum_reads
    (reads : ReadsSpaced environment .sum spelled tree)
    (written : Written spelled word)
    (closes : Closes rest) :
    (stagedEntries environment .sum).Reads (word ++ rest) tree rest :=
  whole_reads .terms reads written (.inl closes)

/-- A sum between parentheses is read up to behind them. -/
theorem ReadsSpaced.enclosed_reads
    {openWord : List Char}
    (build : Expr → Expr)
    (reads : ReadsSpaced environment .sum spelled tree)
    (openWritten : Written ['('] openWord)
    (rest : List Char) :
    Rule.Reads (do
        token (Token.character '(')
        let inner ← stagedEntries environment .sum
        token (Token.character ')')
        pure (build inner))
      (openWord ++ (spelled ++ ([')'] ++ rest))) (build tree) rest := by
  have closeWritten := Token.written_self [')']
  have sumReads := reads.sum_reads (Token.written_self spelled)
    (closes_of_written closeWritten rest)
  have openRead := reads_token (σ := List StagedStep)
    (openWritten.character_append (by decide) (spelled ++ ([')'] ++ rest)))
  have closeRead := reads_token (σ := List StagedStep)
    (closeWritten.character_append (by decide) rest)
  exact openRead.bind.trans (sumReads.bind.trans closeRead.bind)

/-- Where no function is read the operand is, and then the power that it is the
base of, if there is one. -/
theorem factor_leadsTo_power
    (functionMisses : ∀ steps, (function (.staging environment)
      (stagedEntries environment)).Misses ⟨text, steps⟩)
    (operandReads : (operand (.staging environment)
      (stagedEntries environment)).Reads text tree rest) :
    (stagedFactor environment).LeadsTo text
      (power (.staging environment) (stagedEntries environment) tree <|>
        pure tree) rest := by
  have reversible := reversible_staging environment
  have atomic := isAtomic_function reversible (proper_calculations reversible)
  exact (atomic.orElse_leadsTo functionMisses).trans operandReads.bind

/-- A power is read behind its base when the exponent is read behind the
caret. -/
theorem power_reads
    {entries : Entries (List StagedStep)}
    {base exponent : Expr}
    {caretWord : List Char}
    (caretWritten : Written ['^'] caretWord)
    (exponentReads : (entries .factor).Reads text exponent rest) :
    (power (.staging environment) entries base).Reads (caretWord ++ text)
      (.binary .exponentiation base exponent) rest := by
  have caretRead := reads_token (σ := List StagedStep)
    (caretWritten.character_append (by decide) text)
  exact Rule.Reads.attempt (caretRead.bind.trans exponentReads.bind)

/-- An operand is a factor where no caret follows it. -/
theorem ReadsSpaced.factor_of_operand
    (reads : ReadsSpaced environment .operand spelled tree) :
    ReadsSpaced environment .factor spelled tree := by
  have reversible := reversible_staging environment
  have proper := proper_calculations reversible
  intro word rest written setOff
  obtain ⟨functionMisses, operandReads⟩ := reads word rest written
    (setOff.mono fun operator _ => operator.mem_all)
  have noCaret : first? rest ≠ some Operator.exponentiation.mark :=
    setOff.first?_ne_mark (by decide)
  refine (factor_leadsTo_power functionMisses operandReads).trans ?_
  exact (isAtomic_power reversible proper tree).orElse_leadsTo
    fun _ => power_misses noCaret

/-- An operand and a caret are read with the factor behind the caret. -/
theorem ReadsSpaced.power
    {base exponent : Expr}
    {baseText exponentText : List Char}
    (baseReads : ReadsSpaced environment .operand baseText base)
    (exponentReads : ReadsSpaced environment .factor exponentText exponent) :
    ReadsSpaced environment .factor
      (baseText ++ (Operator.exponentiation.between ++ exponentText))
      (.binary .exponentiation base exponent) := by
  intro word rest written setOff
  obtain ⟨baseWord, baseWritten, rfl⟩ := written.exists_front
  have caretWritten := Token.written_behind_space ['^']
  have exponentWritten := Token.written_behind_space exponentText
  obtain ⟨functionMisses, operandReads⟩ := baseReads baseWord
    (Operator.exponentiation.between ++ (exponentText ++ rest)) baseWritten
    (setOff_between (Operator.mem_all _) _)
  have factorReads := exponentReads _ rest exponentWritten setOff
  rw [← stagedEntries_factor] at factorReads
  simp only [List.append_assoc]
  exact (factor_leadsTo_power functionMisses operandReads).trans
    (power_reads caretWritten factorReads).orElse

section

variable
  (identifiers : ∀ name ∈ environment.names, Token.IsIdentifier name.toList)
include identifiers

theorem readsSpaced_number
    {numeral : Numeral}
    (wellFormed : numeral.WellFormed) :
    ReadsSpaced environment .operand numeral.characters
      (.literal numeral.toFloat) := by
  have proper := proper_calculations (reversible_staging environment)
  intro word rest written setOff
  refine ⟨fun _ => function_misses_of_first identifiers ?_,
    operand_reads_number proper wellFormed written setOff.follows⟩
  obtain ⟨head, isHead, digit⟩ := wellFormed.exists_first
  refine ⟨head, ?_, .inr digit⟩
  rwa [written.first?_append wellFormed.visible]

/-- A name is read as a variable. -/
theorem readsSpaced_var
    {name : String}
    (isIdentifier : Token.IsIdentifier name.toList) :
    ReadsSpaced environment .operand name.toList (.var name) := by
  have proper := proper_calculations (reversible_staging environment)
  intro word rest written setOff
  have derived : Derives environment.names .operand word (.var name) :=
    .var isIdentifier written
  exact ⟨fun _ => function_misses_of_operand identifiers derived setOff.follows
      fun _ _ _ => setOff.noStep,
    operand_reads_name proper isIdentifier written setOff.follows.stops⟩

theorem ReadsSpaced.group
    (reads : ReadsSpaced environment .sum spelled tree) :
    ReadsSpaced environment .operand (['('] ++ (spelled ++ [')'])) tree := by
  intro word rest written setOff
  obtain ⟨openWord, openWritten, rfl⟩ := written.exists_front
  simp only [List.append_assoc]
  refine ⟨fun _ => function_misses_of_first identifiers ⟨'(', ?_, .inl rfl⟩,
    Rule.Reads.orElse
      (Rule.Reads.attempt (reads.enclosed_reads id openWritten rest))⟩
  rw [openWritten.first?_append ⟨'(', rfl, by decide⟩]
  rfl

/-- A step behind a bound name is read. -/
theorem readsSpaced_stepAfter
    {name : String}
    (bound : name ∈ environment.names)
    (step : Step) :
    ReadsSpaced environment .function (name.toList ++ step.symbol.toList)
      (.postStep name step) := by
  intro word rest written
  obtain ⟨nameWord, nameWritten, rfl⟩ := written.exists_front
  have symbolWritten := Token.written_self step.symbol.toList
  have stops := symbolWritten.stops step.visible_symbol
    ⟨step.mark, by simp [step.symbol_toList], by cases step <;> decide⟩ rest
  rw [List.append_assoc]
  exact function_reads_of_stepAfter identifiers bound nameWritten stops
    (stepSymbol_append symbolWritten rest)

/-- A sum is read as the argument of a call. -/
theorem ReadsSpaced.call
    (function : MathFunction)
    (reads : ReadsSpaced environment .sum spelled tree) :
    ReadsSpaced environment .function
      (function.name.toList ++ (['('] ++ (spelled ++ [')'])))
      (.call function.name tree) := by
  intro word rest written
  obtain ⟨nameWord, nameWritten, rfl⟩ := written.exists_front
  have openWritten := Token.written_self ['(']
  have found := nameWritten.literal_append function.isIdentifier_name.visible
    (['('] ++ (spelled ++ ([')'] ++ rest)))
  have nameRead := reads_token (σ := List StagedStep)
    (Token.anyOf_eq_some_of_distinct (by decide) function.mem_all found)
  simp only [List.append_assoc]
  refine (function_leadsTo_call identifiers nameWritten openWritten _).trans
    (Rule.Reads.attempt (nameRead.bind.trans ?_))
  exact reads.enclosed_reads (.call function.name) openWritten rest

/-- Every spaced text is read as the tree that it spells. -/
theorem Spaced.reads
    {category : Category}
    (spaced : Spaced environment.names category spelled tree) :
    ReadsSpaced environment category spelled tree := by
  induction spaced with
  | number wellFormed => exact readsSpaced_number identifiers wellFormed
  | var isIdentifier => exact readsSpaced_var identifiers isIdentifier
  | group _ innerReads => exact innerReads.group identifiers
  | stepAfter bound step => exact readsSpaced_stepAfter identifiers bound step
  | call function _ argumentReads =>
      exact argumentReads.call identifiers function
  | function _ functionReads =>
      exact fun word rest written _ => (functionReads word rest written).orElse
  | operand _ operandReads => exact operandReads.factor_of_operand
  | power _ _ baseReads exponentReads => exact baseReads.power exponentReads
  | oneFactor _ factorReads => exact factorReads.one .factors
  | moreFactors multiplicative _ _ leftReads rightReads =>
      exact .more .factors multiplicative leftReads rightReads
  | oneTerm _ productReads => exact productReads.one .terms
  | moreTerms additive _ _ leftReads rightReads =>
      exact .more .terms additive leftReads rightReads

end

end

end Grammar

end LineCalculator
