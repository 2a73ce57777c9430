import LineCalculator.Proofs.Grammar.Atomicity

/-!
# Reading twice

Two scopes are coupled when their answers correspond as long as their records
do. Rules that are built in the same way from corresponding parts then fail
together or succeed together, with corresponding trees and records. How texts,
records and trees correspond is left open. Whether two trees correspond may
depend on the steps noted up to where they were read, and steps noted later
change nothing about it. The length of the texts up to which two rules are
coupled is left open as well, since tied rules are compared by induction on that
length.
-/

namespace LineCalculator

namespace Token

/-- The readers that a grammar uses beside the one for known names. -/
inductive IsFixed : {α : Type} → Reader α → Prop
  | number : IsFixed number
  | identifier : IsFixed identifier
  | character (expected : Char) : IsFixed (character expected)
  | step : IsFixed (anyOf Step.symbol Step.all)
  | operator (operators : List Operator) :
      IsFixed (anyOf Operator.symbol operators)
  | compound (operator : Operator) : IsFixed (literal operator.compoundSymbol)
  | function : IsFixed (anyOf MathFunction.name MathFunction.all)

/-- A fixed reader takes what it reads from the front of the text. -/
theorem IsFixed.consumes
    {reader : Reader α}
    (fixed : IsFixed reader) :
    Consumes reader := by
  cases fixed with
  | number => exact consumes_number
  | identifier => exact consumes_identifier
  | character expected => exact consumes_character expected
  | step => exact consumes_anyOf _ _
  | operator operators => exact consumes_anyOf _ _
  | compound operator => exact consumes_literal _
  | function => exact consumes_anyOf _ _

/-- What two reads give: the same value and corresponding rests, or nothing. -/
abbrev Agree (Text : List Char → List Char → Prop) :
    Option (α × List Char) → Option (α × List Char) → Prop :=
  Option.Rel fun left right => left.1 = right.1 ∧ Text left.2 right.2

/-- On equal texts a reader finds the same. What holds of a text and passes to
its rests holds of the rest that is left. -/
theorem Consumes.agree_self
    {Holds : List Char → Prop}
    {reader : Reader α}
    (consumes : Consumes reader)
    (passes : ∀ {text rest}, Holds text → rest <:+ text → Holds rest)
    {text : List Char}
    (holds : Holds text) :
    Agree (fun text text' => text = text' ∧ Holds text)
      (reader text) (reader text) := by
  rcases read : reader text with _ | ⟨value, rest⟩
  · exact .none
  · exact .some ⟨rfl, rfl, passes holds (consumes text value rest read).suffix⟩

end Token

namespace Grammar

/-- A correspondence between two scopes: of the texts that remain, of the
records, and of the trees that are read up to a record of the first scope. -/
structure Correspondence (left : Scope σ) (right : Scope τ) where
  Text : List Char → List Char → Prop
  Record : σ → τ → Prop
  Tree : σ → Expr → Expr → Prop
  LeftExtends : σ → σ → Prop
  RightExtends : τ → τ → Prop

variable {left : Scope σ} {right : Scope τ}

namespace Correspondence

/-- Two states correspond when their texts and their records do. -/
structure States
    (both : Correspondence left right)
    (start : State σ)
    (start' : State τ) : Prop where
  rest : both.Text start.rest start'.rest
  steps : both.Record start.steps start'.steps

/-- Two results from corresponding states correspond when both are failures or
have values that correspond under the record that is left, and the states that
they leave correspond. Both records have only been added to. -/
structure Results
    (both : Correspondence left right)
    (Value : σ → α → β → Prop)
    (start : State σ)
    (start' : State τ)
    (result : Option α × State σ)
    (result' : Option β × State τ) : Prop where
  states : both.States result.2 result'.2
  values : Option.Rel (Value result.2.steps) result.1 result'.1
  growing : Growing both.LeftExtends start result
  growing' : Growing both.RightExtends start' result'

/-- Two rules are coupled on texts shorter than a bound, from records that
extend a given one. -/
def Rules
    (both : Correspondence left right)
    (base : σ)
    (bound : Nat)
    (Value : σ → α → β → Prop)
    (rule : Rule σ α)
    (rule' : Rule τ β) : Prop :=
  ∀ start start', both.States start start' →
    both.LeftExtends base start.steps → start.rest.length < bound →
      both.Results Value start start' (rule.run start) (rule'.run start')

/-- Both scopes can go back. -/
structure Reversible (both : Correspondence left right) : Prop where
  leftReversible : left.Reversible both.LeftExtends
  rightReversible : right.Reversible both.RightExtends

/-- The readers that both grammars use agree on corresponding texts. -/
structure Readable (both : Correspondence left right) : Prop where
  read : ∀ {α : Type} {reader : Token.Reader α}, Token.IsFixed reader →
    ∀ {text text'}, both.Text text text' →
      Token.Agree both.Text (reader text) (reader text')
  atEnd : ∀ {text text'}, both.Text text text' →
    Token.atEnd text = Token.atEnd text'

/-- Readers agree where only equal texts correspond. -/
theorem readable_of_sameText
    {both : Correspondence left right}
    {Holds : List Char → Prop}
    (passes : ∀ {text rest}, Holds text → rest <:+ text → Holds rest)
    (texts : both.Text = fun text text' => text = text' ∧ Holds text) :
    both.Readable := by
  constructor
  · rw [texts]
    rintro α reader fixed text _ ⟨rfl, holds⟩
    exact fixed.consumes.agree_self passes holds
  · rw [texts]
    rintro text _ ⟨rfl, -⟩
    rfl

/-- Trees that are built in the same way from corresponding trees correspond,
and they still do when further steps have been noted. -/
structure Congruent (both : Correspondence left right) : Prop where
  later : ∀ {record record'}, both.LeftExtends record record' →
    ∀ {tree tree'}, both.Tree record tree tree' → both.Tree record' tree tree'
  number : ∀ {text text'}, both.Text text text' →
    ∀ {value rest}, Token.number text = some (value, rest) →
      ∀ record, both.Tree record (.literal value) (.literal value)
  var : ∀ record name, both.Tree record (.var name) (.var name)
  binary : ∀ operator {record first first' second second'},
    both.Tree record first first' → both.Tree record second second' →
      both.Tree record (.binary operator first second)
        (.binary operator first' second')
  assignment : ∀ target {record value value'}, both.Tree record value value' →
    both.Tree record (.assignment target value) (.assignment target value')
  call : ∀ function {record argument argument'},
    both.Tree record argument argument' →
      both.Tree record (.call function argument) (.call function argument')

/-- The parts of a grammar in which its scope is asked about names are coupled,
and so is everything that they are put together from. -/
structure Lawful (both : Correspondence left right) : Prop extends
    both.Reversible, both.Readable, both.Congruent where
  stepBefore : ∀ base bound,
    both.Rules base bound both.Tree (stepBefore left) (stepBefore right)
  stepAfter : ∀ base bound,
    both.Rules base bound both.Tree (stepAfter left) (stepAfter right)
  compound : ∀ {base bound entries entries' target},
    (∀ operator, both.Rules base bound both.Tree
      (operatorAssignment left entries target operator)
      (operatorAssignment right entries' target operator)) →
    both.Rules base bound both.Tree
      (compoundAssignment left entries target)
      (compoundAssignment right entries' target)

variable
  {both : Correspondence left right}
  {base : σ}
  {bound : Nat}
  {Value : σ → α → β → Prop}
  {Value' : σ → γ → δ → Prop}

theorem Rules.mono
    {rule : Rule σ α}
    {rule' : Rule τ β}
    {smaller : Nat}
    (rules : both.Rules base bound Value rule rule')
    (le : smaller ≤ bound) :
    both.Rules base smaller Value rule rule' :=
  fun start start' states grown short =>
    rules start start' states grown (Nat.lt_of_lt_of_le short le)

section

variable (reversible : both.Reversible)
include reversible

/-- Related values are related rules. -/
theorem rules_pure
    {value : α}
    {value' : β}
    (values : ∀ record, both.LeftExtends base record →
      Value record value value') :
    both.Rules base bound Value (pure value) (pure value') :=
  fun start start' states grown _ =>
    ⟨states, .some (values start.steps grown),
      .refl reversible.leftReversible start,
      .refl reversible.rightReversible start'⟩

/-- Rules that fail in corresponding states and leave them alone are coupled. -/
theorem rules_of_fails
    {rule : Rule σ α}
    {rule' : Rule τ β}
    (fails : ∀ {start}, (∃ start', both.States start start') →
      rule.run start = (none, start))
    (fails' : ∀ {start'}, (∃ start, both.States start start') →
      rule'.run start' = (none, start')) :
    both.Rules base bound Value rule rule' := by
  intro start start' states _ _
  rw [fails ⟨start', states⟩, fails' ⟨start, states⟩]
  exact ⟨states, .none, .refl reversible.leftReversible start,
    .refl reversible.rightReversible start'⟩

theorem rules_failure :
    both.Rules base bound Value failure failure :=
  rules_of_fails reversible (fun _ => rfl) (fun _ => rfl)

/-- Results of what follows are results of the whole sequence. -/
theorem Results.after
    {start middle : State σ}
    {start' middle' : State τ}
    {result : Option α × State σ}
    {result' : Option β × State τ}
    (first : start.Reaches both.LeftExtends middle)
    (first' : start'.Reaches both.RightExtends middle')
    (results : both.Results Value middle middle' result result') :
    both.Results Value start start' result result' :=
  ⟨results.states, results.values,
    .trans reversible.leftReversible first results.growing,
    .trans reversible.rightReversible first' results.growing'⟩

/-- Sequences are coupled when their first rules are, and what follows a value
is coupled on the texts that remain after that value, from the records that its
reading leaves. -/
theorem rules_bind_of
    (room : α → Nat)
    {first : Rule σ α}
    {first' : Rule τ β}
    {next : α → Rule σ γ}
    {next' : β → Rule τ δ}
    (firstRules : both.Rules base bound Value first first')
    (leaves : ∀ start value finish, start.rest.length < bound →
      Growing both.LeftExtends start (first.run start) →
      first.run start = (some value, finish) → finish.rest.length < room value)
    (nextRules : ∀ middle, both.LeftExtends base middle →
      ∀ value value', first.Gives value → Value middle value value' →
        both.Rules middle (room value) Value' (next value) (next' value')) :
    both.Rules base bound Value' (first >>= next) (first' >>= next') := by
  intro start start' states grown short
  have results := firstRules start start' states grown short
  rw [Rule.run_bind, Rule.run_bind]
  rcases outcome : first.run start with ⟨value?, state⟩
  generalize first'.run start' = result' at results ⊢
  have leaves := leaves start
  rw [outcome] at results leaves
  obtain ⟨value'?, state'⟩ := result'
  obtain ⟨middle, values, growing, growing'⟩ := results
  dsimp only at values
  cases values with
  | none => exact ⟨middle, .none, growing, growing'⟩
  | @some value value' values =>
      have extended := reversible.leftReversible.trans grown growing.record
      have following :=
        nextRules state.steps extended value value' ⟨start, state, outcome⟩
          values state state' middle
          (reversible.leftReversible.refl state.steps)
          (leaves value state short growing rfl)
      exact following.after reversible growing growing'

/-- One rule behind another is related when both are, from wherever the first
one leads. -/
theorem rules_bind
    {first : Rule σ α}
    {first' : Rule τ β}
    {next : α → Rule σ γ}
    {next' : β → Rule τ δ}
    (firstRules : both.Rules base bound Value first first')
    (nextRules : ∀ middle, both.LeftExtends base middle →
      ∀ value value', first.Gives value → Value middle value value' →
        both.Rules middle bound Value' (next value) (next' value')) :
    both.Rules base bound Value' (first >>= next) (first' >>= next') := by
  refine rules_bind_of reversible (fun _ => bound) firstRules ?_ nextRules
  intro start value finish short growing outcome
  have later := growing.suffix.length_le
  simp only [outcome] at later
  omega

/-- A sequence after a rule that takes text: what follows need only be coupled
on shorter texts. -/
theorem rules_bind_advancing
    {first : Rule σ α}
    {first' : Rule τ β}
    {next : α → Rule σ γ}
    {next' : β → Rule τ δ}
    (firstRules : both.Rules base (bound + 1) Value first first')
    (advances : first.Advances both.LeftExtends)
    (nextRules : ∀ middle, both.LeftExtends base middle →
      ∀ value value', first.Gives value → Value middle value value' →
        both.Rules middle bound Value' (next value) (next' value')) :
    both.Rules base (bound + 1) Value' (first >>= next) (first' >>= next') := by
  refine rules_bind_of reversible (fun _ => bound) firstRules ?_ nextRules
  intro start value finish short _ outcome
  have shorter : finish.rest.length < start.rest.length := by
    simpa [outcome] using (advances start).2
  omega

theorem rules_orElse
    {first second : Rule σ α}
    {first' second' : Rule τ β}
    (firstRules : both.Rules base bound Value first first')
    (secondRules : both.Rules base bound Value second second') :
    both.Rules base bound Value (first <|> second) (first' <|> second') := by
  intro start start' states grown short
  have results := firstRules start start' states grown short
  rw [Rule.run_orElse, Rule.run_orElse]
  generalize first.run start = result at results ⊢
  generalize first'.run start' = result' at results ⊢
  obtain ⟨value?, state⟩ := result
  obtain ⟨value'?, state'⟩ := result'
  obtain ⟨middle, values, growing, growing'⟩ := results
  dsimp only at values
  cases values with
  | none =>
      have extended := reversible.leftReversible.trans grown growing.record
      have room : state.rest.length < bound :=
        Nat.lt_of_le_of_lt growing.suffix.length_le short
      exact (secondRules state state' middle extended room).after reversible
        growing growing'
  | some values => exact ⟨middle, .some values, growing, growing'⟩

omit reversible in
/-- Values of related rules may be changed to other related values. -/
theorem Rules.map
    {rule : Rule σ α}
    {rule' : Rule τ β}
    {change : α → γ}
    {change' : β → δ}
    (rules : both.Rules base bound Value rule rule')
    (changes : ∀ record value value', Value record value value' →
      Value' record (change value) (change' value')) :
    both.Rules base bound Value' (change <$> rule) (change' <$> rule') := by
  intro start start' states grown short
  obtain ⟨middle, values, growing, growing'⟩ :=
    rules start start' states grown short
  rw [Rule.run_map, Rule.run_map]
  refine ⟨middle, ?_, growing, growing'⟩
  generalize (rule.run start).1 = value? at values
  generalize (rule'.run start').1 = value'? at values
  cases values with
  | none => exact .none
  | some values => exact .some (changes _ _ _ values)

omit reversible in
/-- Related rules may both be missing. -/
theorem Rules.optional
    {rule : Rule σ α}
    {rule' : Rule τ β}
    (rules : both.Rules base bound Value rule rule') :
    both.Rules base bound (fun record => Option.Rel (Value record))
      (optional rule) (optional rule') := by
  intro start start' states grown short
  obtain ⟨middle, values, growing, growing'⟩ :=
    rules start start' states grown short
  rw [Rule.run_optional, Rule.run_optional]
  exact ⟨middle, .some values, growing, growing'⟩

/-- Attempts of coupled rules are coupled: when they fail, both return to the
records at their starts. -/
theorem Rules.attempt
    {rule : Rule σ α}
    {rule' : Rule τ β}
    (rules : both.Rules base bound Value rule rule') :
    both.Rules base bound Value (attempt left rule) (attempt right rule') := by
  intro start start' states grown short
  have results := rules start start' states grown short
  rw [run_attempt, run_attempt]
  generalize rule.run start = result at results ⊢
  generalize rule'.run start' = result' at results ⊢
  obtain ⟨value?, finish⟩ := result
  obtain ⟨value'?, finish'⟩ := result'
  obtain ⟨middle, values, growing, growing'⟩ := results
  dsimp only at values
  cases values with
  | none =>
      have back := reversible.leftReversible.rewind growing.record
      have back' := reversible.rightReversible.rewind growing'.record
      simp only [back, back']
      exact ⟨states, .none, .refl reversible.leftReversible start,
        .refl reversible.rightReversible start'⟩
  | some values => exact ⟨middle, .some values, growing, growing'⟩

/-- Readers that find corresponding values in corresponding texts, or both none,
are coupled as rules. -/
theorem rules_token
    {Found : α → β → Prop}
    {reader : Token.Reader α}
    {reader' : Token.Reader β}
    (consumes : Token.Consumes reader)
    (consumes' : Token.Consumes reader')
    (agree : ∀ {text text'}, both.Text text text' →
      Option.Rel
        (fun found found' => Found found.1 found'.1 ∧ both.Text found.2 found'.2)
        (reader text) (reader' text')) :
    both.Rules base bound (fun _ => Found) (token reader) (token reader') := by
  intro start start' states _ _
  have growing := (isAtomic_token reversible.leftReversible consumes).grows
    reversible.leftReversible start
  have growing' := (isAtomic_token reversible.rightReversible consumes').grows
    reversible.rightReversible start'
  rw [run_token] at growing growing' ⊢
  rw [run_token]
  have reads := agree states.rest
  generalize reader start.rest = read at growing reads ⊢
  generalize reader' start'.rest = read' at growing' reads ⊢
  cases reads with
  | none => exact ⟨states, .none, growing, growing'⟩
  | @some found found' same =>
      exact ⟨⟨same.2, states.steps⟩, .some same.1, growing, growing'⟩

theorem rules_firstM
    {rule : ε → Rule σ α}
    {rule' : ε → Rule τ β}
    {values : List ε}
    (rules : ∀ value, both.Rules base bound Value (rule value) (rule' value)) :
    both.Rules base bound Value (values.firstM rule) (values.firstM rule') := by
  induction values with
  | nil => exact rules_failure reversible
  | cons value values valuesHypothesis =>
      exact rules_orElse reversible (rules value) valuesHypothesis

end

end Correspondence

/-- A lawful correspondence between two scopes. -/
structure Coupling
    (left : Scope σ)
    (right : Scope τ) extends
    Correspondence left right, toCorrespondence.Lawful

end Grammar

end LineCalculator
