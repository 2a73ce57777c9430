import LineCalculator.Statement
import LineCalculator.Proofs.Grammar.Recursion
import LineCalculator.Proofs.Token.Consumption

/-!
# Atomic rules

A rule is atomic when it either fails and changes nothing, or takes a nonempty
front of the text and only adds to the record of steps. Going back to a record
undoes an attempt as long as the record has only been added to in between, so
every attempt is atomic whose parts never take anything out of the record. All
rules of calculations and statements are atomic, except those for the rest of a
sum or product, which may take nothing and do not go back by themselves.
-/

namespace LineCalculator

/-- What a scope notes extends the record, and going back from any extension of
a record gives that record. -/
structure Scope.Reversible
    (scope : Scope σ)
    (Extends : σ → σ → Prop) : Prop where
  refl : ∀ steps, Extends steps steps
  trans : ∀ {first second third},
    Extends first second → Extends second third → Extends first third
  note : ∀ {name}, name ∈ scope.names →
    ∀ steps step, Extends steps (scope.note steps name step)
  rewind : ∀ {start finish},
    Extends start finish → scope.rewind start finish = start

namespace Grammar

variable {scope : Scope σ} {Extends : σ → σ → Prop}

/-- The text of one state is a suffix of the text of another one, and its record
extends the record of that state. -/
structure State.Reaches
    (Extends : σ → σ → Prop)
    (start finish : State σ) : Prop where
  suffix : finish.rest <:+ start.rest
  record : Extends start.steps finish.steps

/-- A result that leaves a later state. -/
def Growing
    (Extends : σ → σ → Prop)
    (start : State σ)
    (result : Option α × State σ) : Prop :=
  start.Reaches Extends result.2

/-- A result that leaves a later state, and less text when it has a value. -/
def Advancing
    (Extends : σ → σ → Prop)
    (start : State σ)
    (result : Option α × State σ) : Prop :=
  Growing Extends start result ∧
    (result.1.isSome → result.2.rest.length < start.rest.length)

/-- A failure that changes nothing, or a value with less text and a record that
extends the one before. -/
def Atomic
    (Extends : σ → σ → Prop)
    (start : State σ) : Option α × State σ → Prop
  | (none, finish) => finish = start
  | (some _, finish) =>
      start.Reaches Extends finish ∧ finish.rest.length < start.rest.length

/-- A rule gives a value when it has that value from some state. -/
def Rule.Gives (rule : Rule σ α) (value : α) : Prop :=
  ∃ start finish, rule.run start = (some value, finish)

/-- Every result of a rule is growing. -/
def Rule.Grows (Extends : σ → σ → Prop) (rule : Rule σ α) : Prop :=
  ∀ start, Growing Extends start (rule.run start)

/-- Every result of a rule is advancing. -/
def Rule.Advances (Extends : σ → σ → Prop) (rule : Rule σ α) : Prop :=
  ∀ start, Advancing Extends start (rule.run start)

/-- Every result of a rule is atomic. -/
def Rule.IsAtomic (Extends : σ → σ → Prop) (rule : Rule σ α) : Prop :=
  ∀ start, Atomic Extends start (rule.run start)

section

variable (reversible : scope.Reversible Extends)
include reversible

theorem State.Reaches.refl (start : State σ) : start.Reaches Extends start :=
  ⟨List.suffix_rfl, reversible.refl start.steps⟩

theorem State.Reaches.trans
    {start middle finish : State σ}
    (first : start.Reaches Extends middle)
    (second : middle.Reaches Extends finish) :
    start.Reaches Extends finish :=
  ⟨second.suffix.trans first.suffix, reversible.trans first.record second.record⟩

/-- An atomic rule moves on when it succeeds. -/
theorem Rule.IsAtomic.advances
    {rule : Rule σ α}
    (atomic : rule.IsAtomic Extends) :
    rule.Advances Extends := by
  intro start
  have result := atomic start
  generalize rule.run start = outcome at result ⊢
  rcases outcome with ⟨_ | value, finish⟩
  · rw [show finish = start from result]
    exact ⟨.refl reversible start, by simp⟩
  · exact ⟨result.1, fun _ => result.2⟩

omit reversible in
theorem Rule.Advances.grows
    {rule : Rule σ α}
    (advances : rule.Advances Extends) :
    rule.Grows Extends :=
  fun start => (advances start).1

theorem Rule.IsAtomic.grows
    {rule : Rule σ α}
    (atomic : rule.IsAtomic Extends) :
    rule.Grows Extends :=
  (atomic.advances reversible).grows

theorem grows_pure (value : α) : (pure value : Rule σ α).Grows Extends :=
  fun start => .refl reversible start

/-- One rule behind another never goes back when neither of the two does. -/
theorem Rule.Grows.bind
    {first : Rule σ α}
    {next : α → Rule σ β}
    (firstGrows : first.Grows Extends)
    (nextGrows : ∀ value, first.Gives value → (next value).Grows Extends) :
    (first >>= next).Grows Extends := by
  intro start
  have middle := firstGrows start
  rw [Rule.run_bind]
  rcases outcome : first.run start with ⟨_ | value, state⟩
  · rwa [outcome] at middle
  · rw [outcome] at middle
    have later := nextGrows value ⟨start, state, outcome⟩ state
    exact State.Reaches.trans reversible middle later

/-- A sequence takes text when its first rule does. -/
theorem Rule.Advances.bind
    {first : Rule σ α}
    {next : α → Rule σ β}
    (firstAdvances : first.Advances Extends)
    (nextGrows : ∀ value, first.Gives value → (next value).Grows Extends) :
    (first >>= next).Advances Extends := by
  intro start
  refine ⟨firstAdvances.grows.bind reversible nextGrows start, ?_⟩
  have middle := firstAdvances start
  rw [Rule.run_bind]
  rcases outcome : first.run start with ⟨_ | value, state⟩
  · simp
  · intro _
    have shorter : state.rest.length < start.rest.length := by
      simpa [outcome] using middle.2
    have later := nextGrows value ⟨start, state, outcome⟩ state
    exact Nat.lt_of_le_of_lt later.suffix.length_le shorter

/-- A choice never goes back when neither of its rules does. -/
theorem Rule.Grows.orElse
    {first second : Rule σ α}
    (firstGrows : first.Grows Extends)
    (secondGrows : second.Grows Extends) :
    (first <|> second).Grows Extends := by
  intro start
  have middle := firstGrows start
  rw [Rule.run_orElse]
  generalize first.run start = outcome at middle ⊢
  rcases outcome with ⟨_ | value, state⟩
  · exact State.Reaches.trans reversible middle (secondGrows state)
  · exact middle

theorem Rule.Advances.orElse
    {first second : Rule σ α}
    (firstAdvances : first.Advances Extends)
    (secondAdvances : second.Advances Extends) :
    (first <|> second).Advances Extends := by
  intro start
  refine ⟨firstAdvances.grows.orElse reversible secondAdvances.grows start, ?_⟩
  have middle := firstAdvances start
  rw [Rule.run_orElse]
  generalize first.run start = outcome at middle ⊢
  rcases outcome with ⟨_ | value, state⟩
  · intro found
    have shorter := (secondAdvances state).2 found
    exact Nat.lt_of_lt_of_le shorter middle.1.suffix.length_le
  · exact middle.2

omit reversible in
/-- A rule that may be missing never goes back when the rule itself does
not. -/
theorem Rule.Grows.optional
    {rule : Rule σ α}
    (grows : rule.Grows Extends) :
    (optional rule).Grows Extends := by
  intro start
  rw [Rule.run_optional]
  exact grows start

omit reversible in
/-- Alternatives are atomic when each of them is. -/
theorem Rule.IsAtomic.orElse
    {first second : Rule σ α}
    (firstAtomic : first.IsAtomic Extends)
    (secondAtomic : second.IsAtomic Extends) :
    (first <|> second).IsAtomic Extends := by
  intro start
  have result := firstAtomic start
  rw [Rule.run_orElse]
  generalize first.run start = outcome at result ⊢
  rcases outcome with ⟨_ | value, state⟩
  · rw [show state = start from result]
    exact secondAtomic start
  · exact result

omit reversible in
/-- Changing the value of an atomic rule leaves it atomic. -/
theorem Rule.IsAtomic.map
    {rule : Rule σ α}
    (atomic : rule.IsAtomic Extends)
    (change : α → β) :
    (change <$> rule).IsAtomic Extends := by
  intro start
  have result := atomic start
  rw [Rule.run_map]
  generalize rule.run start = outcome at result ⊢
  rcases outcome with ⟨_ | value, state⟩
  · exact result
  · exact result

omit reversible in
theorem isAtomic_failure : (failure : Rule σ α).IsAtomic Extends :=
  fun _ => rfl

omit reversible in
/-- The first of several atomic rules that succeeds is atomic. -/
theorem isAtomic_firstM
    {rule : α → Rule σ β}
    {values : List α}
    (atomic : ∀ value ∈ values, (rule value).IsAtomic Extends) :
    (values.firstM rule).IsAtomic Extends := by
  induction values with
  | nil => exact isAtomic_failure
  | cons value values valuesHypothesis =>
      have here := atomic value List.mem_cons_self
      have later := valuesHypothesis fun value member =>
        atomic value (List.mem_cons_of_mem _ member)
      exact here.orElse later

/-- An atomic rule stays atomic when a rule follows it that cannot fail. -/
theorem Rule.IsAtomic.bind_total
    {first : Rule σ α}
    {next : α → Rule σ β}
    (firstAtomic : first.IsAtomic Extends)
    (nextGrows : ∀ value, (next value).Grows Extends)
    (total : ∀ value state, ((next value).run state).1.isSome) :
    (first >>= next).IsAtomic Extends := by
  intro start
  have advancing :=
    (firstAtomic.advances reversible).bind reversible
      (fun value _ => nextGrows value) start
  have failing := firstAtomic start
  rw [Rule.run_bind] at advancing ⊢
  generalize first.run start = outcome at advancing failing ⊢
  rcases outcome with ⟨_ | value, state⟩
  · exact failing
  · have some := total value state
    rcases finish_eq : (next value).run state with ⟨_ | result, finish⟩
    · simp [finish_eq] at some
    · simp only [finish_eq] at advancing ⊢
      exact ⟨advancing.1, advancing.2 rfl⟩

/-- Reading a token is atomic. -/
theorem isAtomic_token
    {reader : Token.Reader α}
    (consumes : Token.Consumes reader) :
    (token reader : Rule σ α).IsAtomic Extends := by
  intro start
  rw [run_token]
  rcases found : reader start.rest with _ | ⟨value, rest⟩
  · rfl
  · have leaves := consumes start.rest value rest found
    exact ⟨⟨leaves.suffix, reversible.refl start.steps⟩, leaves.shorter⟩

/-- An attempt of an advancing rule is atomic: whatever the rule had noted when
it failed is undone. -/
theorem Rule.Advances.attempt
    {rule : Rule σ α}
    (advances : rule.Advances Extends) :
    (attempt scope rule).IsAtomic Extends := by
  intro start
  have result := advances start
  rw [run_attempt]
  generalize rule.run start = outcome at result ⊢
  rcases outcome with ⟨_ | value, finish⟩
  · have back := reversible.rewind result.1.record
    simp only [back]
    rfl
  · exact ⟨result.1, result.2 rfl⟩

end

end Grammar

end LineCalculator
