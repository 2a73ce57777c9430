import LineCalculator.Proofs.Grammar.Visits

/-!
# Reading is orderly

Every rule makes orderly notes when the entries that it takes do. A rule that
opens the grammar again does so behind a token or an operand that took text, so
by induction on the text that remains the notes of the tied rules are orderly.
In positions: a rule that is entered through a parenthesis or a caret, and every
round of a sum or product, starts further on than all rules around it.
-/

namespace LineCalculator

namespace Grammar

variable
  {scope : Scope σ}
  {Extends : σ → σ → Prop}
  {Start : State (Journal σ) → Prop}
  {watchedEntries : Entries (Journal σ)}
  {entries : Entries σ}

/-- A watched rule takes text when the rule does. -/
theorem Watches.takes
    {watched : Rule (Journal σ) α}
    {rule : Rule σ α}
    (watches : Watches watched rule)
    (advances : rule.Advances Extends)
    (start : State (Journal σ))
    (value : α)
    (finish : State (Journal σ))
    (outcome : watched.run start = (some value, finish)) :
    finish.rest.length < start.rest.length := by
  have advancing := advances start.unwatched
  rw [watches start, outcome] at advancing
  exact advancing.2 rfl

theorem lasts_true : Lasts (σ := σ) fun _ => True :=
  fun _ _ _ _ _ => trivial

theorem records_endOfText : (endOfText : Rule (Journal σ) Unit).Records Start :=
  fun start _ => .refl start _

theorem records_stepBefore : (stepBefore scope.journaled).Records Start := by
  refine Rule.Records.mono (.attempt ?_) fun _ _ => trivial
  refine (records_token (Token.consumes_anyOf _ _)).bind lasts_true fun step => ?_
  refine (records_token (Token.consumes_anyOf _ _)).bind lasts_true fun name => ?_
  exact fun start _ =>
    ⟨List.suffix_rfl, rfl, [], (List.append_nil _).symm, by simp⟩

theorem records_stepAfter : (stepAfter scope.journaled).Records Start := by
  refine Rule.Records.mono (.attempt ?_) fun _ _ => trivial
  refine (records_token (Token.consumes_anyOf _ _)).bind lasts_true fun name => ?_
  exact (records_token (Token.consumes_anyOf _ _)).bind lasts_true fun step =>
    records_pure _

section

variable (records : ∀ entry,
  (watchedEntries entry).Records (CanEnter (Watched.placeOf entry)))
include records

theorem records_group :
    (group scope.journaled watchedEntries).Records (Inside .group) := by
  have inner : (watchedEntries .sum).Records (Beyond .group) :=
    (records .sum).behind rfl
  refine .attempt (.bind_token (Token.consumes_character '(') fun _ => ?_)
  refine inner.bind lasts_beyond fun value => ?_
  exact (records_token (Token.consumes_character ')')).bind lasts_beyond fun _ =>
    records_pure value

theorem records_call :
    (call scope.journaled watchedEntries).Records (Inside .call) := by
  have argument : (watchedEntries .sum).Records (Beyond .call) :=
    (records .sum).behind rfl
  refine .attempt (.bind_token (Token.consumes_anyOf _ _) fun function => ?_)
  refine (records_token (Token.consumes_character '(')).bind lasts_beyond
    fun _ => ?_
  refine argument.bind lasts_beyond fun value => ?_
  exact (records_token (Token.consumes_character ')')).bind lasts_beyond fun _ =>
    records_pure _

theorem records_power (base : Expr) :
    (power scope.journaled watchedEntries base).Records (Inside .factor) := by
  have exponent : (watchedEntries .factor).Records (Beyond .factor) :=
    (records .factor).behind rfl
  refine .attempt (.bind_token (Token.consumes_character '^') fun _ => ?_)
  exact exponent.bind lasts_beyond fun value => records_pure _

/-- A function makes orderly notes where it can be entered. -/
theorem records_function :
    (Watched.function scope.journaled watchedEntries).Records
      (CanEnter .function) := by
  refine .visiting (.orElse ?before lasts_inside (.orElse ?after lasts_inside ?_))
  case before => exact records_stepBefore.visiting.within rfl (by decide)
  case after => exact records_stepAfter.visiting.within rfl (by decide)
  exact (records_call records).visiting.within rfl (by decide)

theorem records_operand :
    (Watched.operand scope.journaled watchedEntries).Records
      (CanEnter .operand) := by
  refine .visiting (.orElse ?group lasts_inside ?_)
  case group => exact (records_group records).visiting.within rfl (by decide)
  exact ((records_token Token.consumes_identifier).map _).orElse lasts_inside
    ((records_token Token.consumes_number).map _)

theorem records_factorBody :
    (Watched.factorBody scope.journaled watchedEntries).Records
      (Inside .factor) := by
  refine .orElse ?function lasts_inside
    (.bind ?operand lasts_inside fun base => ?_)
  case function => exact (records_function records).within rfl (by decide)
  case operand => exact (records_operand records).within rfl (by decide)
  exact (records_power records base).orElse lasts_inside (records_pure base)

theorem records_factor :
    (Watched.factor scope.journaled watchedEntries).Records (CanEnter .factor) :=
  (records_factorBody records).visiting

end

/-- A rule reads an operand and more of them in rounds. -/
structure Place.Repeats (place round inner : Place) : Prop where
  opens : place.reopens round = true
  again : round.reopens round = true
  first : place.reopens inner = false
  firstBelow : inner.rank < place.rank
  later : round.reopens inner = false
  laterBelow : inner.rank < round.rank

theorem repeats_sum : Place.sum.Repeats .termRound .product :=
  ⟨rfl, rfl, rfl, by decide, rfl, by decide⟩

theorem repeats_product : Place.product.Repeats .factorRound .factor :=
  ⟨rfl, rfl, rfl, by decide, rfl, by decide⟩

section

variable
  {place round inner : Place}
  {operand : Rule (Journal σ) Expr}
  {again : Expr → Rule (Journal σ) Expr}
  (repeats : place.Repeats round inner)
  (operandRecords : operand.Records (CanEnter inner))
  (againRecords : ∀ left, (again left).Records (CanEnter round))
include repeats operandRecords againRecords

/-- What goes on in a round makes orderly notes, as the next round starts
behind an operator. -/
theorem records_more (operators : List Operator) (left : Expr) :
    (more operators operand again left).Records (Inside round) := by
  refine records_bind_optional_token (Token.consumes_anyOf _ _)
    (records_pure left) fun operator => ?_
  have right := (operandRecords.within repeats.later repeats.laterBelow).mono
    fun _ => Beyond.inside
  exact right.bind lasts_beyond fun value =>
    (againRecords _).behind repeats.again

/-- A chain makes orderly notes, as its rounds start behind its first
operand. -/
theorem records_chain
    {rule : Rule σ Expr}
    (operators : List Operator)
    (watches : Watches operand rule)
    (advances : rule.Advances Extends) :
    (Watched.chain scope.journaled round operators operand again).Records
      (Inside place) := by
  have first := operandRecords.within repeats.first repeats.firstBelow
  refine .attempt (first.bind_beyond (watches.takes advances) fun left => ?_)
  have rounds :=
    records_more repeats operandRecords againRecords operators left
  exact rounds.visiting.behind repeats.opens

end

section

variable
  (reversible : scope.Reversible Extends)
  (proper : Satisfy entries (Proper Extends))
  (watches : ∀ entry, Watches (watchedEntries entry) (entries entry))
  (records : ∀ entry,
    (watchedEntries entry).Records (CanEnter (Watched.placeOf entry)))
include reversible proper watches records

theorem records_product :
    (Watched.product scope.journaled watchedEntries).Records
      (CanEnter .product) :=
  .visiting (records_chain repeats_product (records_factor records)
    (fun left => records (.moreFactors left)) Operator.multiplicative
    (watches_factor watches)
    ((isAtomic_factor reversible proper).advances reversible))

theorem records_sumBody :
    (Watched.sumBody scope.journaled watchedEntries).Records (Inside .sum) :=
  records_chain repeats_sum (records_product reversible proper watches records)
    (fun left => records (.moreTerms left)) Operator.additive
    (watches_product watches)
    ((isAtomic_product reversible proper
      (isAtomic_factor reversible proper)).advances reversible)

/-- The rules make orderly notes when their entries do. -/
theorem records_rules (entry : Entry) :
    (Watched.rules scope.journaled watchedEntries entry).Records
      (Inside (Watched.placeOf entry)) := by
  cases entry with
  | sum => exact records_sumBody reversible proper watches records
  | factor => exact records_factorBody records
  | moreTerms left =>
      exact records_more repeats_sum
        (records_product reversible proper watches records)
        (fun left => records (.moreTerms left)) _ left
  | moreFactors left =>
      exact records_more repeats_product (records_factor records)
        (fun left => records (.moreFactors left)) _ left

end

section

variable (reversible : scope.Reversible Extends)
include reversible

/-- Closed rules make orderly notes inside their own visit. -/
theorem records_close (entry : Entry) :
    (close
      (fun entries => Watched.rules scope.journaled (Watched.visited entries))
      entry).Records (Inside (Watched.placeOf entry)) := by
  intro start inside
  induction length : start.rest.length using Nat.strongRecOn
    generalizing entry start with
  | ind length' lengthHypothesis =>
      have proper := proper_guarded reversible start.unwatched
      let below := guarded start (close fun entries =>
        Watched.rules scope.journaled (Watched.visited entries))
      have watches (next : Entry) :
          Watches (below next) (guarded start.unwatched (calculations scope) next) :=
        watches_guarded (fun next state _ => watches_close next state) next
      have records (next : Entry) :
          (below next).Records (Inside (Watched.placeOf next)) := by
        intro state insideNext
        rw [run_guarded]
        by_cases shorter : state.rest.length < start.rest.length
        · rw [if_pos shorter]
          exact lengthHypothesis _ (length ▸ shorter) next state insideNext rfl
        · rw [if_neg shorter]
          exact .refl state none
      rw [run_close_guarded]
      exact records_rules reversible proper (fun next => (watches next).visiting _)
        (fun next => (records next).visiting) entry start inside

/-- Calculations make orderly notes where they can be entered. -/
theorem records_calculations (entry : Entry) :
    (Watched.calculations scope.journaled entry).Records
      (CanEnter (Watched.placeOf entry)) :=
  .visiting (records_close reversible entry)

end

theorem records_firstM
    {rule : α → Rule (Journal σ) β}
    (lasts : Lasts Start)
    (records : ∀ value, (rule value).Records Start)
    (values : List α) :
    (values.firstM rule).Records Start := by
  induction values with
  | nil => exact records_failure
  | cons value values valuesHypothesis =>
      exact (records value).orElse lasts valuesHypothesis

section

variable (records : ∀ entry,
  (watchedEntries entry).Records (CanEnter (Watched.placeOf entry)))
include records

theorem records_completeSum :
    (completeSum scope.journaled watchedEntries).Records (CanEnter .sum) := by
  refine .attempt ((records .sum).bind lasts_canEnter fun value => ?_)
  exact records_endOfText.bind lasts_canEnter fun _ => records_pure value

theorem records_assignment :
    (assignment scope.journaled watchedEntries).Records (CanEnter .sum) := by
  have behindSymbol {reader : Token.Reader Unit}
      (consumes : Token.Consumes reader)
      (tree : Expr → Expr) :
      (attempt scope.journaled do
        token reader
        let value ← completeSum scope.journaled watchedEntries
        pure (tree value)).Records (CanEnter .sum) :=
    .attempt ((records_token consumes).bind lasts_canEnter fun _ =>
      (records_completeSum records).bind lasts_canEnter fun _ => records_pure _)
  refine .attempt ((records_token Token.consumes_identifier).bind lasts_canEnter
    fun target => ?_)
  refine .orElse (behindSymbol (Token.consumes_character '=') _) lasts_canEnter ?_
  unfold compoundAssignment
  split
  · exact records_firstM lasts_canEnter
      (fun operator => behindSymbol (Token.consumes_literal _) _) _
  · exact records_failure

end

/-- Every rule can be entered where nothing is being read. -/
theorem canEnter_of_path_eq_nil
    {place : Place}
    (start : State (Journal σ))
    (nothingAround : start.steps.path = []) :
    CanEnter place start := by
  rw [CanEnter, nothingAround]
  exact List.isChain_singleton _

section

variable (reversible : scope.Reversible Extends)
include reversible

/-- Every part of a statement makes orderly notes. -/
theorem Part.records_watchedRule (part : Part) :
    (part.watchedRule scope).Records fun start => start.steps.path = [] := by
  have proper := proper_calculations reversible
  have watches : ∀ entry,
      Watches (Watched.calculations scope.journaled entry)
        (calculations scope entry) := watches_calculations
  have records := records_calculations reversible
  suffices entered : ∃ place, (part.watchedRule scope).Records (CanEnter place) by
    obtain ⟨place, entered⟩ := entered
    exact entered.mono canEnter_of_path_eq_nil
  cases part with
  | assignment => exact ⟨_, records_assignment records⟩
  | completeSum => exact ⟨_, records_completeSum records⟩
  | sum =>
      exact ⟨_, (records_sumBody reversible proper watches records).visiting⟩
  | product => exact ⟨_, records_product reversible proper watches records⟩
  | factor => exact ⟨_, records_factor records⟩
  | operand => exact ⟨_, records_operand records⟩
  | group => exact ⟨_, (records_group records).visiting⟩
  | function => exact ⟨_, records_function records⟩
  | stepBefore => exact ⟨_, records_stepBefore.visiting⟩
  | stepAfter => exact ⟨_, records_stepAfter.visiting⟩
  | call => exact ⟨_, (records_call records).visiting⟩

/-- A statement makes orderly notes from an empty path. -/
theorem records_watchedStatement :
    (watchedStatement scope).Records fun start => start.steps.path = [] := by
  have records := records_calculations reversible
  have entered : (watchedStatement scope).Records (CanEnter .sum) :=
    (records_assignment records).orElse lasts_canEnter
      (records_completeSum records)
  exact entered.mono canEnter_of_path_eq_nil

end

/-- The position in a text at which a rule is entered. -/
def Visit.position (text : String) (visit : Visit) : Nat :=
  (State.cursor text ⟨visit.rest, ()⟩).position

/-- The visits that are made while a text is read. Where the grammar is opened
again the position is greater than at every visit around. Elsewhere the position
is no smaller, and a part of the rule around it is entered. No more factors are
being read at once than the text has bytes, and one more. -/
structure OrderlyVisits
    (text : String)
    (visits : List (List Visit)) : Prop where
  reopened : ∀ visit parent around, visit :: parent :: around ∈ visits →
    parent.place.reopens visit.place = true →
      ∀ outer ∈ parent :: around, outer.position text < visit.position text
  descended : ∀ visit parent around, visit :: parent :: around ∈ visits →
    parent.place.reopens visit.place = false →
      visit.place.rank < parent.place.rank ∧
        parent.position text ≤ visit.position text
  shallow : ∀ path ∈ visits, factorDepth path ≤ text.utf8ByteSize + 1

theorem length_le_byteSize (text : List Char) : text.length ≤ byteSize text := by
  induction text with
  | nil => exact Nat.le_refl 0
  | cons character text textHypothesis =>
      have positive := character.utf8Size_pos
      rw [List.length_cons, byteSize_cons]
      omega

/-- Orderly notes in a part of a text are orderly visits of the text. -/
theorem orderlyVisits_of_noted
    {text : String}
    {start : State (Journal σ)}
    {visits : List (List Visit)}
    (startOn : start.On text)
    (nothingAround : start.steps.path = [])
    (noted : ∀ path ∈ visits, Noted start path) :
    OrderlyVisits text visits := by
  have startSuffix := State.on_iff_suffix.mp startOn
  have within {path : List Visit} (member : path ∈ visits) :
      ∀ visit ∈ path, visit.rest <:+ text.toList := by
    intro visit here
    have inside := (noted path member).within visit here
    rw [nothingAround] at inside
    exact (inside.resolve_left List.not_mem_nil).trans startSuffix
  have on {path : List Visit} (member : path ∈ visits) :
      ∀ visit ∈ path, State.On text (⟨visit.rest, ()⟩ : State Unit) :=
    fun visit here => State.on_iff_suffix.mpr (within member visit here)
  constructor
  case reopened =>
    intro visit parent around member reopens outer outerMember
    have orderly := (noted _ member).orderly
    exact State.position_lt (on member outer (List.mem_cons_of_mem _ outerMember))
      (orderly.suffix outer outerMember)
      (orderly.shorter reopens outer outerMember)
  case descended =>
    intro visit parent around member noReopening
    have follows := (List.isChain_cons_cons.mp (noted _ member).orderly).1
    refine ⟨follows.below noReopening, ?_⟩
    obtain ⟨taken, split⟩ := follows.suffix
    simp only [Visit.position, State.cursor, ← split, byteSize_append]
    omega
  case shallow =>
    intro path member
    cases path with
    | nil => exact Nat.zero_le _
    | cons visit around =>
        have lengths : ∀ outer ∈ visit :: around,
            outer.rest.length ≤ text.utf8ByteSize := by
          intro outer outerMember
          rw [← byteSize_toList]
          exact (within member outer outerMember).length_le.trans
            (length_le_byteSize _)
        have depth := (noted _ member).orderly.factorDepth_le lengths
        split at depth <;> omega

end Grammar

end LineCalculator
