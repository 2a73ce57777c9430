import LineCalculator.Expr
import LineCalculator.Token

/-!
# Grammar rules

A rule reads a part of a statement from the text that remains. Beside the text
it threads a record of the steps met so far. A rule that fails keeps the state
it has reached; `attempt` is what returns to the text at its start and undoes
the steps noted since.

A scope is what a grammar asks about the variables of a session. It knows the
bound names, and it tells the value of a name and takes note of a step, given a
record of the steps met so far. The staging scope never changes the environment:
it keeps the steps in a list, applies those of one name to the value that the
environment holds, and cuts the list back to the length that it had when a
failed attempt began.

The rules of a grammar call one another through a small set of entries, and
`close` ties that knot: an entry is taken only where less text remains than at
the entry before it, so every statement is read to an end.
-/

namespace LineCalculator

/-- A step together with the name of the variable it changes. -/
structure StagedStep where
  name : String
  step : Step
  deriving DecidableEq

namespace Environment

/-- Apply the steps of a list to an environment, the first one first. -/
def applySteps
    (environment : Environment)
    (steps : List StagedStep) : Environment :=
  steps.foldl
    (fun environment staged => environment.applyStep staged.name staged.step)
    environment

/-- The value that a name has after the steps of a list, without applying
them. -/
def valueAfter
    (environment : Environment)
    (steps : List StagedStep)
    (name : String) : Float :=
  (steps.filter fun staged => staged.name = name).foldl
    (fun value staged => staged.step.apply value)
    (environment.lookup name)

end Environment

/-- The variables of a session as a grammar sees them, with steps recorded in
values of type `σ`. The names are listed in the order in which they are tried.
Going back takes the record at the start of an attempt and the one at its end. -/
structure Scope (σ : Type) where
  names : List String
  value : σ → String → Float
  note : σ → String → Step → σ
  rewind : σ → σ → σ

namespace Scope

/-- The scope that keeps steps aside in the order in which they are met. -/
def staging (environment : Environment) : Scope (List StagedStep) where
  names := environment.namesByLength
  value := environment.valueAfter
  note steps name step := steps ++ [⟨name, step⟩]
  rewind start steps := steps.take start.length

end Scope

namespace Grammar

/-- The text that remains and the record of the steps met so far. -/
structure State (σ : Type) where
  rest : List Char
  steps : σ

/-- A rule changes the state and gives a value unless it fails. -/
abbrev Rule (σ : Type) := OptionT (StateM (State σ))

/-- Apply a rule to a state. -/
def Rule.run (rule : Rule σ α) (start : State σ) : Option α × State σ :=
  StateT.run (OptionT.run rule) start

/-- The rule of a function on states. -/
def Rule.mk (run : State σ → Option α × State σ) : Rule σ α :=
  OptionT.mk (m := StateM (State σ)) run

namespace Rule

@[simp] theorem run_mk
    (run : State σ → Option α × State σ)
    (start : State σ) :
    (Rule.mk run).run start = run start := rfl

@[simp] theorem run_pure
    (value : α)
    (start : State σ) :
    (pure value : Rule σ α).run start = (some value, start) := rfl

@[simp] theorem run_failure (start : State σ) :
    (failure : Rule σ α).run start = (none, start) := rfl

@[simp] theorem run_get (start : State σ) :
    (get : Rule σ (State σ)).run start = (some start, start) := rfl

@[simp] theorem run_set (state start : State σ) :
    (set state : Rule σ PUnit).run start = (some ⟨⟩, state) := rfl

/-- A sequence goes on from the state that its first rule leaves, and ends
there when that rule fails. -/
theorem run_bind
    (first : Rule σ α)
    (next : α → Rule σ β)
    (start : State σ) :
    (first >>= next).run start =
      match first.run start with
      | (some value, state) => (next value).run state
      | (none, state) => (none, state) := by
  simp only [run, OptionT.run_bind, Option.elimM, StateT.run_bind]
  generalize (OptionT.run first).run start = result
  rcases result with ⟨_ | value, state⟩ <;> rfl

/-- An alternative is tried from the state that the first rule leaves when it
fails. -/
theorem run_orElse
    (first second : Rule σ α)
    (start : State σ) :
    (first <|> second).run start =
      match first.run start with
      | (some value, state) => (some value, state)
      | (none, state) => second.run state := by
  simp only [run, OptionT.run_orElse, Option.elimM, StateT.run_bind]
  generalize (OptionT.run first).run start = result
  rcases result with ⟨_ | value, state⟩ <;> rfl

/-- A function of the value of a rule leaves the state to the rule. -/
theorem run_map
    (change : α → β)
    (rule : Rule σ α)
    (start : State σ) :
    (change <$> rule).run start =
      ((rule.run start).1.map change, (rule.run start).2) := by
  rw [map_eq_pure_bind, run_bind]
  rcases rule.run start with ⟨_ | value, state⟩ <;> rfl

/-- An optional rule never fails. -/
theorem run_optional
    (rule : Rule σ α)
    (start : State σ) :
    (optional rule).run start = (some (rule.run start).1, (rule.run start).2) := by
  change (some <$> rule <|> pure none : Rule σ (Option α)).run start = _
  rw [run_orElse, run_map]
  rcases rule.run start with ⟨_ | value, state⟩ <;> rfl

end Rule

/-- Read one token, or fail and leave the state alone. -/
def token (reader : Token.Reader α) : Rule σ α :=
  Rule.mk fun start =>
    match reader start.rest with
    | some (value, rest) => (some value, { start with rest })
    | none => (none, start)

/-- A token moves the place in the text alone, and only when it is found. -/
theorem run_token
    (reader : Token.Reader α)
    (start : State σ) :
    (token reader).run start =
      match reader start.rest with
      | some (value, rest) => (some value, { start with rest })
      | none => (none, start) := rfl

/-- Succeed only where nothing but blanks remains. -/
def endOfText : Rule σ Unit :=
  Rule.mk fun start =>
    (if Token.atEnd start.rest then some () else none, start)

/-- Apply a rule. When it fails, return to the text at its start and undo the
steps noted since. -/
def attempt (scope : Scope σ) (rule : Rule σ α) : Rule σ α :=
  Rule.mk fun start =>
    match rule.run start with
    | (some value, finish) => (some value, finish)
    | (none, finish) => (none, ⟨start.rest, scope.rewind start.steps finish.steps⟩)

/-- An attempt that fails goes back to where it started and rewinds the record
of the steps. -/
theorem run_attempt
    (scope : Scope σ)
    (rule : Rule σ α)
    (start : State σ) :
    (attempt scope rule).run start =
      match rule.run start with
      | (some value, finish) => (some value, finish)
      | (none, finish) =>
          (none, ⟨start.rest, scope.rewind start.steps finish.steps⟩) := rfl

/-- The points at which a grammar is entered again: a sum, a factor, and the
rest of a sum or product after what stands to the left of it. -/
inductive Entry
  | sum
  | factor
  | moreTerms (left : Expr)
  | moreFactors (left : Expr)

/-- A rule for every entry. -/
abbrev Entries (σ : Type) := Entry → Rule σ Expr

/-- The rules of a grammar given the rules for its entries, tied together. -/
def close
    (rules : Entries σ → Entries σ)
    (entry : Entry) : Rule σ Expr :=
  Rule.mk fun start => read entry start
where
  /-- Read an entry, taking further entries only where less text remains. -/
  read (entry : Entry) (start : State σ) : Option Expr × State σ :=
    (rules
      (fun next => Rule.mk fun state =>
        if state.rest.length < start.rest.length then read next state
        else (none, state))
      entry).run start
  termination_by start.rest.length

/-- An entry runs its rule with every further entry guarded by the text that
remains. -/
theorem run_close
    (rules : Entries σ → Entries σ)
    (entry : Entry)
    (start : State σ) :
    (close rules entry).run start =
      (rules
        (fun next => Rule.mk fun state =>
          if state.rest.length < start.rest.length then
            (close rules next).run state
          else (none, state))
        entry).run start := by
  simp only [close, Rule.run_mk]
  rw [close.read]

end Grammar

end LineCalculator
