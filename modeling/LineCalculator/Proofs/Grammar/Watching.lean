import LineCalculator.Proofs.Grammar.StagedAttempts

/-!
# Watching how a text is read

The rules of calculations once more, with a note made of every rule that is
entered: which rule it is, the text that remains there, and the rules around it
that are still being read. A note is made before the rule is tried, wherever it
is entered, and it stays when an attempt fails. Apart from the notes the watched
rules do what the rules do.
-/

namespace LineCalculator

namespace Grammar

/-- The rules that are told apart. A round is one turn of a sum or product, in
which an operator is looked for and the operand behind it is read. -/
inductive Place
  | sum
  | termRound
  | product
  | factorRound
  | factor
  | operand
  | group
  | function
  | stepBefore
  | stepAfter
  | call
  deriving DecidableEq

/-- A rule that is entered and the text that remains there. -/
structure Visit where
  place : Place
  rest : List Char
  deriving DecidableEq

/-- A record of steps, the visits around the present one, innermost first, and
all visits so far, each in front of those around it. -/
structure Journal (σ : Type) where
  steps : σ
  path : List Visit
  visits : List (List Visit)

end Grammar

/-- The scope with journals for records. Going back undoes steps but no
visit. -/
def Scope.journaled (scope : Scope σ) : Scope (Grammar.Journal σ) where
  names := scope.names
  value record := scope.value record.steps
  note record name step :=
    { record with steps := scope.note record.steps name step }
  rewind start finish :=
    { finish with steps := scope.rewind start.steps finish.steps }

namespace Grammar

/-- The state with an empty journal. -/
def State.watched (start : State σ) : State (Journal σ) :=
  ⟨start.rest, start.steps, [], []⟩

/-- The state without its journal. -/
def State.unwatched (state : State (Journal σ)) : State σ :=
  ⟨state.rest, state.steps.steps⟩

/-- The state in which a rule is entered, with a note of it. -/
def State.entering
    (place : Place)
    (state : State (Journal σ)) : State (Journal σ) :=
  let path := ⟨place, state.rest⟩ :: state.steps.path
  { state with steps :=
    { state.steps with path, visits := state.steps.visits ++ [path] } }

/-- Enter a rule, apply it and take it from the path again. -/
def visiting
    (place : Place)
    (rule : Rule (Journal σ) α) : Rule (Journal σ) α :=
  Rule.mk fun start =>
    let (value, finish) := rule.run (start.entering place)
    (value, { finish with steps :=
      { finish.steps with path := start.steps.path } })

/-! ## Watched rules -/

namespace Watched

section

variable (scope : Scope (Journal σ)) (entries : Entries (Journal σ))

/-- A step on a known name or a call, each noted where it is tried. -/
def function : Rule (Journal σ) Expr :=
  visiting .function
    (visiting .stepBefore (Grammar.stepBefore scope) <|>
      visiting .stepAfter (Grammar.stepAfter scope) <|>
      visiting .call (Grammar.call scope entries))

/-- What can stand in front of a caret. Only a group is a rule of its own. -/
def operand : Rule (Journal σ) Expr :=
  visiting .operand
    (visiting .group (Grammar.group scope entries) <|>
      Expr.var <$> token Token.identifier <|>
      Expr.literal <$> token Token.number)

/-- What is done when a factor is entered. -/
def factorBody : Rule (Journal σ) Expr :=
  function scope entries <|> do
    let base ← operand scope entries
    power scope entries base <|> pure base

def factor : Rule (Journal σ) Expr :=
  visiting .factor (factorBody scope entries)

/-- An operand and the first round behind it. -/
def chain
    (round : Place)
    (operators : List Operator)
    (operand : Rule (Journal σ) Expr)
    (again : Expr → Rule (Journal σ) Expr) : Rule (Journal σ) Expr :=
  attempt scope do
    let left ← operand
    visiting round (more operators operand again left)

def product : Rule (Journal σ) Expr :=
  visiting .product
    (chain scope .factorRound Operator.multiplicative (factor scope entries)
      (entries ∘ .moreFactors))

/-- What is done when a sum is entered. -/
def sumBody : Rule (Journal σ) Expr :=
  chain scope .termRound Operator.additive (product scope entries)
    (entries ∘ .moreTerms)

/-- What is done when an entry is entered. -/
def rules : Entries (Journal σ)
  | .sum => sumBody scope entries
  | .factor => factorBody scope entries
  | .moreTerms left =>
      more Operator.additive (product scope entries)
        (entries ∘ .moreTerms) left
  | .moreFactors left =>
      more Operator.multiplicative (factor scope entries)
        (entries ∘ .moreFactors) left

end

/-- The rule that an entry enters. -/
def placeOf : Entry → Place
  | .sum => .sum
  | .factor => .factor
  | .moreTerms _ => .termRound
  | .moreFactors _ => .factorRound

/-- Note every entry, also where it is not taken because no less text remains. -/
def visited (entries : Entries (Journal σ)) : Entries (Journal σ) :=
  fun entry => visiting (placeOf entry) (entries entry)

/-- The watched rules, tied together. -/
def calculations (scope : Scope (Journal σ)) : Entries (Journal σ) :=
  visited (close fun entries => rules scope (visited entries))

end Watched

/-- The watched rule that reads a part of a statement. -/
def Part.watchedRule (scope : Scope σ) (part : Part) : Rule (Journal σ) Expr :=
  let entries := Watched.calculations scope.journaled
  match part with
  | .assignment => Grammar.assignment scope.journaled entries
  | .completeSum => Grammar.completeSum scope.journaled entries
  | .sum => visiting .sum (Watched.sumBody scope.journaled entries)
  | .product => Watched.product scope.journaled entries
  | .factor => Watched.factor scope.journaled entries
  | .operand => Watched.operand scope.journaled entries
  | .group => visiting .group (Grammar.group scope.journaled entries)
  | .function => Watched.function scope.journaled entries
  | .stepBefore => visiting .stepBefore (Grammar.stepBefore scope.journaled)
  | .stepAfter => visiting .stepAfter (Grammar.stepAfter scope.journaled)
  | .call => visiting .call (Grammar.call scope.journaled entries)

/-- The watched rule that reads a whole statement. -/
def watchedStatement (scope : Scope σ) : Rule (Journal σ) Expr :=
  statement scope.journaled (Watched.calculations scope.journaled)

/-! ## Watching changes nothing -/

/-- A watched rule does what a rule does, apart from the notes. -/
def Watches (watched : Rule (Journal σ) α) (rule : Rule σ α) : Prop :=
  ∀ start, rule.run start.unwatched =
    ((watched.run start).1, (watched.run start).2.unwatched)

variable {scope : Scope σ}

theorem watches_pure (value : α) :
    Watches (pure value : Rule (Journal σ) α) (pure value) :=
  fun _ => rfl

theorem watches_failure :
    Watches (failure : Rule (Journal σ) α) (failure : Rule σ α) :=
  fun _ => rfl

theorem watches_token (reader : Token.Reader α) :
    Watches (token reader : Rule (Journal σ) α) (token reader) := by
  intro start
  rw [run_token, run_token, State.unwatched]
  rcases reader start.rest with _ | ⟨value, rest⟩ <;> rfl

theorem watches_endOfText :
    Watches (endOfText : Rule (Journal σ) Unit) endOfText :=
  fun _ => rfl

section

variable {watched : Rule (Journal σ) α} {rule : Rule σ α}

theorem Watches.bind
    {watchedNext : α → Rule (Journal σ) β}
    {next : α → Rule σ β}
    (watches : Watches watched rule)
    (later : ∀ value, Watches (watchedNext value) (next value)) :
    Watches (watched >>= watchedNext) (rule >>= next) := by
  intro start
  rw [Rule.run_bind, Rule.run_bind, watches start]
  rcases watched.run start with ⟨_ | value, state⟩
  · rfl
  · exact later value state

theorem Watches.orElse
    {watchedOther : Rule (Journal σ) α}
    {other : Rule σ α}
    (watches : Watches watched rule)
    (watchesOther : Watches watchedOther other) :
    Watches (watched <|> watchedOther) (rule <|> other) := by
  intro start
  rw [Rule.run_orElse, Rule.run_orElse, watches start]
  rcases watched.run start with ⟨_ | value, state⟩
  · exact watchesOther state
  · rfl

theorem Watches.map
    (watches : Watches watched rule)
    (change : α → β) :
    Watches (change <$> watched) (change <$> rule) := by
  intro start
  rw [Rule.run_map, Rule.run_map, watches start]

theorem Watches.optional (watches : Watches watched rule) :
    Watches (optional watched) (optional rule) := by
  intro start
  rw [Rule.run_optional, Rule.run_optional, watches start]

theorem Watches.attempt (watches : Watches watched rule) :
    Watches (attempt scope.journaled watched) (attempt scope rule) := by
  intro start
  rw [run_attempt, run_attempt, watches start]
  rcases watched.run start with ⟨_ | value, state⟩ <;> rfl

/-- Noting a visit changes nothing that a rule reads. -/
theorem Watches.visiting
    (watches : Watches watched rule)
    (place : Place) :
    Watches (visiting place watched) rule :=
  fun start => watches (start.entering place)

theorem watches_firstM
    {watched : β → Rule (Journal σ) α}
    {rule : β → Rule σ α}
    (watches : ∀ value, Watches (watched value) (rule value))
    (values : List β) :
    Watches (values.firstM watched) (values.firstM rule) := by
  induction values with
  | nil => exact watches_failure
  | cons value values valuesHypothesis =>
      exact (watches value).orElse valuesHypothesis

end

theorem watches_stepBefore :
    Watches (stepBefore scope.journaled) (stepBefore scope) :=
  ((watches_token _).bind fun _ =>
    (watches_token _).bind fun _ _ => rfl).attempt

theorem watches_stepAfter :
    Watches (stepAfter scope.journaled) (stepAfter scope) :=
  ((watches_token _).bind fun _ =>
    (watches_token _).bind fun _ => watches_pure _).attempt

section

variable
  {watchedEntries : Entries (Journal σ)}
  {entries : Entries σ}
  (watches : ∀ entry, Watches (watchedEntries entry) (entries entry))
include watches

theorem watches_group :
    Watches (group scope.journaled watchedEntries) (group scope entries) :=
  ((watches_token _).bind fun _ => (watches .sum).bind fun inner =>
    (watches_token _).bind fun _ => watches_pure inner).attempt

theorem watches_call :
    Watches (call scope.journaled watchedEntries) (call scope entries) :=
  ((watches_token _).bind fun _ => (watches_token _).bind fun _ =>
    (watches .sum).bind fun _ => (watches_token _).bind fun _ =>
      watches_pure _).attempt

theorem watches_power (base : Expr) :
    Watches (power scope.journaled watchedEntries base)
      (power scope entries base) :=
  ((watches_token _).bind fun _ => (watches .factor).bind fun _ =>
    watches_pure _).attempt

theorem watches_function :
    Watches (Watched.function scope.journaled watchedEntries)
      (function scope entries) :=
  ((watches_stepBefore.visiting _).orElse
    ((watches_stepAfter.visiting _).orElse
      ((watches_call watches).visiting _))).visiting _

theorem watches_operand :
    Watches (Watched.operand scope.journaled watchedEntries)
      (operand scope entries) :=
  (((watches_group watches).visiting _).orElse
    (((watches_token _).map _).orElse ((watches_token _).map _))).visiting _

theorem watches_factorBody :
    Watches (Watched.factorBody scope.journaled watchedEntries)
      (factor scope entries) :=
  (watches_function watches).orElse ((watches_operand watches).bind fun base =>
    (watches_power watches base).orElse (watches_pure base))

theorem watches_factor :
    Watches (Watched.factor scope.journaled watchedEntries)
      (factor scope entries) :=
  (watches_factorBody watches).visiting _

omit watches in
/-- What goes on behind an operator is watched when its right side and its
rounds are. -/
theorem watches_more
    {watchedOperand : Rule (Journal σ) Expr}
    {operand : Rule σ Expr}
    {watchedAgain : Expr → Rule (Journal σ) Expr}
    {again : Expr → Rule σ Expr}
    (operators : List Operator)
    (watchesOperand : Watches watchedOperand operand)
    (watchesAgain : ∀ left, Watches (watchedAgain left) (again left))
    (left : Expr) :
    Watches (more operators watchedOperand watchedAgain left)
      (more operators operand again left) := by
  refine ((watches_token _).optional).bind fun found => ?_
  cases found with
  | none => exact watches_pure left
  | some operator => exact watchesOperand.bind fun right => watchesAgain _

omit watches in
/-- A watched chain reads as the chain does. -/
theorem watches_chain
    {watchedOperand : Rule (Journal σ) Expr}
    {operand : Rule σ Expr}
    {watchedAgain : Expr → Rule (Journal σ) Expr}
    {again : Expr → Rule σ Expr}
    (round : Place)
    (operators : List Operator)
    (watchesOperand : Watches watchedOperand operand)
    (watchesAgain : ∀ left, Watches (watchedAgain left) (again left)) :
    Watches
      (Watched.chain scope.journaled round operators watchedOperand watchedAgain)
      (chain scope operators operand again) :=
  (watchesOperand.bind fun left =>
    (watches_more operators watchesOperand watchesAgain left).visiting
      round).attempt

theorem watches_product :
    Watches (Watched.product scope.journaled watchedEntries)
      (product scope (factor scope entries) entries) :=
  (watches_chain .factorRound Operator.multiplicative (watches_factor watches)
    fun left => watches (.moreFactors left)).visiting _

theorem watches_sumBody :
    Watches (Watched.sumBody scope.journaled watchedEntries)
      (sum scope (factor scope entries) entries) :=
  watches_chain .termRound Operator.additive (watches_product watches)
    fun left => watches (.moreTerms left)

/-- The watched parts of a calculation read as the parts do. -/
theorem watches_rules (entry : Entry) :
    Watches (Watched.rules scope.journaled watchedEntries entry)
      (rulesOver scope (factor scope) entries entry) := by
  cases entry with
  | sum => exact watches_sumBody watches
  | factor => exact watches_factorBody watches
  | moreTerms left =>
      exact watches_more _ (watches_product watches)
        (fun left => watches (.moreTerms left)) left
  | moreFactors left =>
      exact watches_more _ (watches_factor watches)
        (fun left => watches (.moreFactors left)) left

theorem watches_completeSum :
    Watches (completeSum scope.journaled watchedEntries)
      (completeSum scope entries) :=
  ((watches .sum).bind fun value => watches_endOfText.bind fun _ =>
    watches_pure value).attempt

theorem watches_assignment :
    Watches (assignment scope.journaled watchedEntries)
      (assignment scope entries) := by
  have plain (target : String) :
      Watches (plainAssignment scope.journaled watchedEntries target)
        (plainAssignment scope entries target) :=
    ((watches_token _).bind fun _ => (watches_completeSum watches).bind fun _ =>
      watches_pure _).attempt
  have withOperator (target : String) (operator : Operator) :
      Watches
        (operatorAssignment scope.journaled watchedEntries target operator)
        (operatorAssignment scope entries target operator) :=
    ((watches_token _).bind fun _ => (watches_completeSum watches).bind fun _ =>
      watches_pure _).attempt
  have compound (target : String) :
      Watches (compoundAssignment scope.journaled watchedEntries target)
        (compoundAssignment scope entries target) := by
    unfold compoundAssignment
    by_cases bound : target ∈ scope.names
    · rw [if_pos (show target ∈ scope.journaled.names from bound), if_pos bound]
      exact watches_firstM (withOperator target) Operator.all
    · rw [if_neg (show target ∉ scope.journaled.names from bound), if_neg bound]
      exact watches_failure
  exact ((watches_token _).bind fun target =>
    (plain target).orElse (compound target)).attempt

end

/-- Guarded entries are taken from the same states with and without notes. -/
theorem watches_guarded
    {watchedEntries : Entries (Journal σ)}
    {entries : Entries σ}
    {start : State (Journal σ)}
    (watches : ∀ entry state, state.rest.length < start.rest.length →
      (entries entry).run state.unwatched =
        (((watchedEntries entry).run state).1,
          ((watchedEntries entry).run state).2.unwatched))
    (entry : Entry) :
    Watches (guarded start watchedEntries entry)
      (guarded start.unwatched entries entry) := by
  intro state
  rw [run_guarded, run_guarded]
  by_cases shorter : state.rest.length < start.rest.length
  · rw [if_pos shorter, if_pos (show state.unwatched.rest.length <
      start.unwatched.rest.length from shorter)]
    exact watches entry state shorter
  · rw [if_neg shorter, if_neg (show ¬ state.unwatched.rest.length <
      start.unwatched.rest.length from shorter)]

/-- Closing the watched rules changes nothing, since visits leave the text
alone. -/
theorem watches_close (entry : Entry) :
    Watches
      (close
        (fun entries => Watched.rules scope.journaled (Watched.visited entries))
        entry)
      (calculations scope entry) := by
  intro start
  induction length : start.rest.length using Nat.strongRecOn
    generalizing entry start with
  | ind length' lengthHypothesis =>
      have inner : ∀ next,
          Watches
            (guarded start (close fun entries =>
              Watched.rules scope.journaled (Watched.visited entries)) next)
            (guarded start.unwatched (calculations scope) next) :=
        watches_guarded fun next state shorter =>
          lengthHypothesis _ (length ▸ shorter) next state rfl
      rw [run_close_guarded, calculations, run_close_guarded]
      exact watches_rules (fun next => (inner next).visiting _) entry start

/-- Every entry of the watched rules does what the entry does. -/
theorem watches_calculations (entry : Entry) :
    Watches (Watched.calculations scope.journaled entry)
      (calculations scope entry) :=
  (watches_close entry).visiting _

/-- The watched statement reads as the statement does. -/
theorem watches_statement :
    Watches (watchedStatement scope) (statement scope (calculations scope)) :=
  (watches_assignment watches_calculations).orElse
    (watches_completeSum watches_calculations)

/-- The watched rule of a part reads as its rule does. -/
theorem Part.watches_rule (part : Part) :
    Watches (part.watchedRule scope) (part.rule scope) := by
  have watches : ∀ entry,
      Watches (Watched.calculations scope.journaled entry)
        (calculations scope entry) := watches_calculations
  cases part with
  | assignment => exact watches_assignment watches
  | completeSum => exact watches_completeSum watches
  | sum => exact (watches_sumBody watches).visiting _
  | product => exact watches_product watches
  | factor => exact watches_factor watches
  | operand => exact watches_operand watches
  | group => exact (watches_group watches).visiting _
  | function => exact watches_function watches
  | stepBefore => exact watches_stepBefore.visiting _
  | stepAfter => exact watches_stepAfter.visiting _
  | call => exact (watches_call watches).visiting _

end Grammar

end LineCalculator
