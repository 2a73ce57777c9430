import LineCalculator.Grammar.Rule

/-!
# Induction over the entries of a grammar

Tied rules enter the grammar again only where less text remains. A property of
results that every failure without change has and that the rules pass on holds
of all entries, and rules that agree wherever such a property holds are tied
into the same grammar.
-/

namespace LineCalculator

namespace Grammar

/-- Rules that give the same result from every state are the same. -/
theorem Rule.ext
    {first second : Rule σ α}
    (same : ∀ start, first.run start = second.run start) :
    first = second :=
  funext same

/-- The entries where less text remains than at a given state, and failure
elsewhere. -/
def guarded (start : State σ) (entries : Entries σ) : Entries σ :=
  fun next => Rule.mk fun state =>
    if state.rest.length < start.rest.length then (entries next).run state
    else (none, state)

theorem run_guarded
    (start : State σ)
    (entries : Entries σ)
    (next : Entry)
    (state : State σ) :
    (guarded start entries next).run state =
      if state.rest.length < start.rest.length then (entries next).run state
      else (none, state) := rfl

/-- An entry of tied rules takes its further entries from the tied rules. -/
theorem run_close_guarded
    (rules : Entries σ → Entries σ)
    (entry : Entry)
    (start : State σ) :
    (close rules entry).run start =
      (rules (guarded start (close rules)) entry).run start :=
  run_close rules entry start

/-- A property of an entry, a state and the result of the entry from it. -/
abbrev ResultProperty (σ : Type) :=
  Entry → State σ → Option Expr × State σ → Prop

/-- Every entry has results with a given property. -/
def Satisfy (entries : Entries σ) (property : ResultProperty σ) : Prop :=
  ∀ entry start, property entry start ((entries entry).run start)

section

variable
  {rules rules' : Entries σ → Entries σ}
  {property : ResultProperty σ}

/-- Guarded entries have a property that the entries have where less text
remains. -/
theorem satisfy_guarded
    {entries : Entries σ}
    {start : State σ}
    (stop : ∀ entry state, property entry state (none, state))
    (below : ∀ entry state, state.rest.length < start.rest.length →
      property entry state ((entries entry).run state)) :
    Satisfy (guarded start entries) property := by
  intro entry state
  rw [run_guarded]
  split
  · next shorter => exact below entry state shorter
  · exact stop entry state

/-- Tied rules have every property that failing without change has and that the
rules pass on. -/
theorem satisfy_close
    (stop : ∀ entry state, property entry state (none, state))
    (pass : ∀ entries : Entries σ,
      Satisfy entries property → Satisfy (rules entries) property) :
    Satisfy (close rules) property := by
  intro entry start
  induction length : start.rest.length using Nat.strongRecOn
    generalizing entry start with
  | ind length' lengthHypothesis =>
      rw [run_close_guarded]
      apply pass
      apply satisfy_guarded stop
      intro next state shorter
      exact lengthHypothesis state.rest.length (length ▸ shorter) next state rfl

/-- Rules that agree on all entries with a property that one of them passes on
are tied into the same grammar. -/
theorem close_congr
    (stop : ∀ entry state, property entry state (none, state))
    (pass : ∀ entries : Entries σ,
      Satisfy entries property → Satisfy (rules entries) property)
    (agree : ∀ entries : Entries σ,
      Satisfy entries property → rules' entries = rules entries) :
    close rules' = close rules := by
  have all : ∀ length entry (start : State σ), start.rest.length = length →
      (close rules' entry).run start = (close rules entry).run start := by
    intro length
    induction length using Nat.strongRecOn with
    | ind length lengthHypothesis =>
        intro entry start start_length
        have entries_eq :
            guarded start (close rules') = guarded start (close rules) := by
          funext next
          apply Rule.ext
          intro state
          simp only [run_guarded]
          split
          · next shorter =>
              exact lengthHypothesis _ (start_length ▸ shorter) next state rfl
          · rfl
        have inherited : Satisfy (guarded start (close rules)) property :=
          satisfy_guarded stop fun entry state _ =>
            satisfy_close stop pass entry state
        rw [run_close_guarded, run_close_guarded, entries_eq, agree _ inherited]
  funext entry
  apply Rule.ext
  intro start
  exact all _ entry start rfl

end

end Grammar

end LineCalculator
