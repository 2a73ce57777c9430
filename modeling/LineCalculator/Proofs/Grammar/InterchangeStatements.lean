import LineCalculator.Proofs.Grammar.InterchangeRules
import LineCalculator.Statement

/-!
# Statements in interchangeable environments

The calculations of two interchangeable environments have the same settled
results on ends of the text of every length. A sum that takes up the whole text
is settled, so whole sums, assignments and statements are found alike.
-/

namespace LineCalculator

open Token (IsIdentifier StartsWord)

namespace Grammar

variable
  {text : List Char}
  {left right : Environment}
  {start : State (List StagedStep)}
  {entries entries' : Entries (List StagedStep)}
  {bound : Nat}

/-- The parts of a calculation are ready in every environment. -/
theorem ready_calculations (environment : Environment) :
    Ready environment (calculations (.staging environment)) := by
  have reversible := reversible_staging environment
  refine ⟨proper_calculations reversible, ?_, ?_⟩
  · intro before state isBlocked
    rw [calculations_eq reversible]
    exact settled_more_of_blocked (by decide) isBlocked before
  · intro before state isBlocked
    rw [calculations_eq reversible]
    exact settled_more_of_blocked (by decide) isBlocked before

/-- The rules over alike entries are alike on texts that are longer by one. -/
theorem alikeEntries_rulesOver
    (both : Environment.Interchangeable text left right)
    (ready : Ready left entries)
    (ready' : Ready right entries')
    (alike : AlikeEntries text bound entries entries') :
    AlikeEntries text (bound + 1)
      (rulesOver (.staging left) (factor (.staging left)) entries)
      (rulesOver (.staging right) (factor (.staging right)) entries') := by
  have reversible' := reversible_staging right
  have factors := alike_factor both alike ready ready'
  have factorAtomic := isAtomic_factor reversible' ready'.proper
  have factorGrows := factorAtomic.grows reversible'
  have products :
      Alike (StartsWord text) (bound + 1)
        (product (.staging left) (factor (.staging left) entries) entries)
        (product (.staging right) (factor (.staging right) entries') entries') :=
    alike_chain ready.moreFactors ready'.moreFactors alike.moreFactors
      (by decide) factors factorGrows
  have productGrows :=
    (isAtomic_product reversible' ready'.proper factorAtomic).grows reversible'
  have shorter := Nat.le_succ bound
  exact
    { sum := alike_chain ready.moreTerms ready'.moreTerms alike.moreTerms
        (by decide) products productGrows
      factor := factors
      moreTerms := alike_more ready.moreTerms ready'.moreTerms alike.moreTerms
        (products.mono shorter) productGrows
      moreFactors := alike_more ready.moreFactors ready'.moreFactors
        alike.moreFactors (factors.mono shorter) factorGrows }

/-- The parts of a calculation settle alike in both environments. -/
theorem alikeEntries_calculations
    (both : Environment.Interchangeable text left right)
    (bound : Nat) :
    AlikeEntries text bound
      (calculations (.staging left)) (calculations (.staging right)) := by
  induction bound with
  | zero =>
      exact
        { sum := fun _ _ short => absurd short (Nat.not_lt_zero _)
          factor := fun _ _ short => absurd short (Nat.not_lt_zero _)
          moreTerms := fun _ _ _ short => absurd short (Nat.not_lt_zero _)
          moreFactors := fun _ _ _ short => absurd short (Nat.not_lt_zero _) }
  | succ bound boundHypothesis =>
      rw [calculations_eq (reversible_staging left),
        calculations_eq (reversible_staging right)]
      exact alikeEntries_rulesOver both (ready_calculations left)
        (ready_calculations right) boundHypothesis

/-- The first of several rules that are found alike is found alike. -/
theorem found_firstM_congr
    {Extends Extends' : σ → σ → Prop}
    {rule rule' : β → Rule σ α}
    {values : List β}
    {start : State σ}
    (atomic : ∀ value, (rule value).IsAtomic Extends)
    (atomic' : ∀ value, (rule' value).IsAtomic Extends')
    (same : ∀ value, (rule value).found start = (rule' value).found start) :
    (values.firstM rule).found start = (values.firstM rule').found start := by
  induction values with
  | nil => rfl
  | cons value values valuesHypothesis =>
      calc
        (rule value <|> values.firstM rule).found start = _ :=
          (atomic value).found_orElse
        _ = ((rule' value).found start).or
            ((values.firstM rule').found start) := by
          rw [same value, valuesHypothesis]
        _ = _ := (atomic' value).found_orElse.symm

section

variable
  (both : Environment.Interchangeable text left right)
include both

/-- The same sum up to the end of the text is found in both environments. -/
theorem found_completeSum (startsWord : StartsWord text start.rest) :
    (completeSum (.staging left) (calculations (.staging left))).found start =
      (completeSum (.staging right) (calculations (.staging right))).found
        start := by
  have alike := alikeEntries_calculations both (start.rest.length + 1)
  rw [completeSum, completeSum, found_attempt, found_attempt]
  refine found_bind_congr (alike.sum start startsWord (Nat.lt_succ_self _)) ?_
  intro value finish isBlocked
  have misses : endOfText.Misses finish := by
    intro _ _ outcome
    have atEnd := (endOfText_eq_some_iff.mp outcome).1
    simp [atEnd_eq_false_of_blocked isBlocked] at atEnd
  exact misses.bind.found_eq

/-- What is assigned behind a symbol is found alike. -/
theorem found_assigned
    {reader : Token.Reader Unit}
    (build : Expr → Expr)
    (starts : ∀ rest, reader start.rest = some ((), rest) →
      StartsWord text rest) :
    Rule.found (do
        token reader
        let value ← completeSum (.staging left) (calculations (.staging left))
        pure (build value)) start =
      Rule.found (do
        token reader
        let value ← completeSum (.staging right) (calculations (.staging right))
        pure (build value)) start := by
  apply found_bind_token_congr
  intro _ rest read
  rw [found_bind, found_bind, found_completeSum both (starts rest read)]

section

variable (suffix : start.rest <:+ text)
include suffix

theorem found_plainAssignment (target : String) :
    (plainAssignment (.staging left) (calculations (.staging left))
        target).found start =
      (plainAssignment (.staging right) (calculations (.staging right))
        target).found start := by
  rw [plainAssignment, plainAssignment, found_attempt, found_attempt]
  apply found_assigned both (Expr.assignment target)
  intro rest read
  exact Token.startsWord_of_character suffix read (by decide) (by decide)

theorem found_operatorAssignment (target : String) (operator : Operator) :
    (operatorAssignment (.staging left) (calculations (.staging left))
        target operator).found start =
      (operatorAssignment (.staging right) (calculations (.staging right))
        target operator).found start := by
  rw [operatorAssignment, operatorAssignment, found_attempt, found_attempt]
  apply found_assigned both fun value =>
    .assignment target (.binary operator (.var target) value)
  intro rest read
  exact (Token.isSymbol_compound operator).startsWord suffix
    (Token.literal_eq_some_iff.mp read).2

/-- The same assignment with an operator is found in both environments when
both bind the target or neither does. -/
theorem found_compoundAssignment
    {target : String}
    (bound : target ∈ left.names ↔ target ∈ right.names) :
    (compoundAssignment (.staging left) (calculations (.staging left))
        target).found start =
      (compoundAssignment (.staging right) (calculations (.staging right))
        target).found start := by
  have reversible := reversible_staging left
  have reversible' := reversible_staging right
  have known : target ∈ (Scope.staging left).names ↔
      target ∈ (Scope.staging right).names := by
    simpa [Scope.staging] using bound
  unfold compoundAssignment
  by_cases member : target ∈ (Scope.staging left).names
  · rw [if_pos member, if_pos (known.mp member)]
    exact found_firstM_congr
      (fun operator => isAtomic_operatorAssignment reversible
        (proper_calculations reversible) target operator)
      (fun operator => isAtomic_operatorAssignment reversible'
        (proper_calculations reversible') target operator)
      fun operator => found_operatorAssignment both suffix target operator
  · rw [if_neg member, if_neg fun other => member (known.mpr other)]

end

theorem found_assignment (startsWord : StartsWord text start.rest) :
    (assignment (.staging left) (calculations (.staging left))).found start =
      (assignment (.staging right) (calculations (.staging right))).found
        start := by
  have reversible := reversible_staging left
  have reversible' := reversible_staging right
  rw [assignment, assignment, found_attempt, found_attempt]
  apply found_bind_token_congr
  intro target rest read
  obtain ⟨isIdentifier, stops, split⟩ := Token.identifier_eq_some_iff.mp read
  have mentioned := startsWord.mem_words isIdentifier stops split
  have suffix : rest <:+ text :=
    (Token.consumes_identifier _ _ _ read).suffix.trans startsWord.suffix
  rw [(isAtomic_plainAssignment reversible
      (proper_calculations reversible) target).found_orElse,
    (isAtomic_plainAssignment reversible'
      (proper_calculations reversible') target).found_orElse,
    found_plainAssignment both suffix,
    found_compoundAssignment both suffix (both.agree.mem_names_iff mentioned)]

/-- The same statement is found in both environments where a word starts. -/
theorem found_statement (startsWord : StartsWord text start.rest) :
    (statement (.staging left) (calculations (.staging left))).found start =
      (statement (.staging right) (calculations (.staging right))).found
        start := by
  have reversible := reversible_staging left
  have reversible' := reversible_staging right
  rw [statement, statement,
    (isAtomic_assignment reversible
      (proper_calculations reversible)).found_orElse,
    (isAtomic_assignment reversible'
      (proper_calculations reversible')).found_orElse,
    found_assignment both startsWord, found_completeSum both startsWord]

end

end Grammar

namespace Statement

theorem parse?_eq_map_found (text : String) (environment : Environment) :
    parse? text environment =
      ((Grammar.statement (.staging environment)
          (Grammar.calculations (.staging environment))).found
        ⟨text.toList, []⟩).map fun (root, finish) => ⟨root, finish.steps⟩ := by
  rw [parse?, Grammar.Rule.found]
  rcases (Grammar.statement _ (Grammar.calculations
    (Scope.staging environment))).run ⟨text.toList, []⟩ with
    ⟨_ | root, finish⟩ <;> rfl

/-- A text is read alike in environments that are interchangeable for it. -/
theorem parse?_eq_of_interchangeable
    {text : String}
    {left right : Environment}
    (both : Environment.Interchangeable text.toList left right) :
    parse? text left = parse? text right := by
  rw [parse?_eq_map_found, parse?_eq_map_found,
    Grammar.found_statement both (Token.startsWord_self text.toList)]

end Statement

end LineCalculator
