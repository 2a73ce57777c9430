import LineCalculator.Proofs.Grammar.Success
import LineCalculator.Proofs.Token.Spelling

/-!
# Settled results

What a rule finds is its value and the state that it leaves. A result is blocked
when a letter, a digit or a caret is the next character that is not blank: no
part of a statement starts with one of these behind another part, so nothing
comes of such a result. The others are settled. Of a rule whose result is looked
at only by what follows it, the settled results are all that counts.
-/

namespace LineCalculator

namespace Grammar

/-- The value that a rule gives and the state that it leaves. -/
def Rule.found (rule : Rule σ α) (start : State σ) : Option (α × State σ) :=
  match rule.run start with
  | (some value, finish) => some (value, finish)
  | (none, _) => none

/-- Whether a letter, a digit or a caret stands behind the blanks of a text. -/
def blocked (text : List Char) : Bool :=
  (Token.first? text).any fun first => first.isAlphanum || first == '^'

/-- What a rule finds unless the text that it leaves is blocked. -/
def Rule.settled (rule : Rule σ α) (start : State σ) : Option (α × State σ) :=
  (rule.found start).filter fun (_, finish) => !blocked finish.rest

variable
  {scope : Scope σ}
  {Extends Extends' : σ → σ → Prop}
  {start finish : State σ}
  {rule first first' second second' : Rule σ α}

theorem Rule.found_eq_some_iff {value : α} :
    rule.found start = some (value, finish) ↔
      rule.run start = (some value, finish) := by
  rw [found]
  rcases rule.run start with ⟨_ | found, middle⟩ <;> simp

/-- A result settles when it is found and what is left is not blocked. -/
theorem Rule.settled_eq_some_iff {value : α} :
    rule.settled start = some (value, finish) ↔
      rule.run start = (some value, finish) ∧ blocked finish.rest = false := by
  rw [settled, Option.filter_eq_some_iff, found_eq_some_iff, Bool.not_eq_true']

theorem Rule.Misses.found_eq (misses : rule.Misses start) :
    rule.found start = none := by
  rcases outcome : rule.found start with _ | ⟨value, finish⟩
  · rfl
  · exact absurd (Rule.found_eq_some_iff.mp outcome) (misses value finish)

theorem Rule.settled_congr (same : first.found start = second.found start) :
    first.settled start = second.settled start := by
  rw [settled, settled, same]

/-- Two rules find the same when each finds what the other one does. -/
theorem found_eq_of_imp
    (there : ∀ value finish, first.run start = (some value, finish) →
      second.run start = (some value, finish))
    (back : ∀ value finish, second.run start = (some value, finish) →
      first.run start = (some value, finish)) :
    first.found start = second.found start := by
  apply Option.ext
  rintro ⟨value, finish⟩
  rw [Rule.found_eq_some_iff, Rule.found_eq_some_iff]
  exact ⟨there value finish, back value finish⟩

/-- Rules settle alike when each settled result of the one is a result of the
other. -/
theorem settled_eq_of_imp
    (there : ∀ value finish, first.run start = (some value, finish) →
      blocked finish.rest = false → second.run start = (some value, finish))
    (back : ∀ value finish, second.run start = (some value, finish) →
      blocked finish.rest = false → first.run start = (some value, finish)) :
    first.settled start = second.settled start := by
  apply Option.ext
  rintro ⟨value, finish⟩
  rw [Rule.settled_eq_some_iff, Rule.settled_eq_some_iff]
  exact ⟨fun ⟨outcome, free⟩ => ⟨there value finish outcome free, free⟩,
    fun ⟨outcome, free⟩ => ⟨back value finish outcome free, free⟩⟩

/-- A blocked text starts with a letter, a digit or a caret. -/
theorem first?_of_blocked
    {text : List Char}
    (isBlocked : blocked text = true) :
    ∃ first ∈ Token.first? text, first.isAlphanum = true ∨ first = '^' := by
  simpa [blocked, Option.any_eq_true] using isBlocked

/-- A text that is not blocked does not carry on a word. -/
theorem stops_of_not_blocked
    {text : List Char}
    (notBlocked : blocked text = false) :
    Token.Stops Char.isAlphanum text := by
  apply Token.stops_of_first?
  intro first isFirst
  by_contra alphanumeric
  have isBlocked : blocked text = true := by
    rw [blocked, Option.any_eq_true]
    exact ⟨first, isFirst, by simp_all⟩
  simp [isBlocked] at notBlocked

theorem atEnd_eq_false_of_blocked
    {text : List Char}
    (isBlocked : blocked text = true) :
    Token.atEnd text = false := by
  obtain ⟨first, isFirst, -⟩ := first?_of_blocked isBlocked
  exact Token.atEnd_eq_false isFirst

/-- A character that is no letter, digit or caret is not found in a blocked
text. -/
theorem character_eq_none_of_blocked
    {text : List Char}
    {expected : Char}
    (isBlocked : blocked text = true)
    (other : expected.isAlphanum = false ∧ expected ≠ '^') :
    Token.character expected text = none := by
  obtain ⟨first, isFirst, kind⟩ := first?_of_blocked isBlocked
  apply Token.character_eq_none
  intro isExpected
  obtain rfl := Option.mem_unique isFirst isExpected
  rcases kind with alphanumeric | caret
  · simp [other.1] at alphanumeric
  · exact other.2 caret

theorem found_pure (value : α) :
    (pure value : Rule σ α).found start = some (value, start) := rfl

theorem settled_pure_of_blocked
    (isBlocked : blocked start.rest = true)
    (value : α) :
    (pure value : Rule σ α).settled start = none := by
  simp [Rule.settled, found_pure, Option.filter, isBlocked]

theorem found_token (reader : Token.Reader α) :
    (token reader).found start =
      (reader start.rest).map fun (value, rest) =>
        (value, { start with rest }) := by
  rw [Rule.found, run_token]
  rcases reader start.rest with _ | ⟨value, rest⟩ <;> rfl

theorem found_optional_token (reader : Token.Reader α) :
    (optional (token reader)).found start =
      match reader start.rest with
      | some (value, rest) => some (some value, { start with rest })
      | none => some (none, start) := by
  rw [Rule.found, Rule.run_optional, run_token]
  rcases reader start.rest with _ | ⟨value, rest⟩ <;> rfl

theorem found_bind
    (first : Rule σ α)
    (next : α → Rule σ β) :
    (first >>= next).found start =
      (first.found start).bind fun (value, middle) =>
        (next value).found middle := by
  rw [Rule.found, Rule.found, Rule.run_bind]
  rcases first.run start with ⟨_ | value, middle⟩ <;> rfl

/-- What settles behind a rule settles where that rule leads. -/
theorem settled_bind
    (first : Rule σ α)
    (next : α → Rule σ β) :
    (first >>= next).settled start =
      (first.found start).bind fun (value, middle) =>
        (next value).settled middle := by
  rw [Rule.settled, found_bind]
  rcases first.found start with _ | ⟨value, middle⟩ <;> rfl

theorem found_attempt (scope : Scope σ) (rule : Rule σ α) :
    (attempt scope rule).found start = rule.found start := by
  rw [Rule.found, Rule.found, run_attempt]
  rcases rule.run start with ⟨_ | value, middle⟩ <;> rfl

theorem settled_attempt (scope : Scope σ) (rule : Rule σ α) :
    (attempt scope rule).settled start = rule.settled start :=
  Rule.settled_congr (found_attempt scope rule)

/-- An atomic rule that fails leaves the state to its alternative. -/
theorem Rule.IsAtomic.found_orElse (atomic : first.IsAtomic Extends) :
    (first <|> second).found start =
      (first.found start).or (second.found start) := by
  have unchanged := atomic start
  rw [found, found, Rule.run_orElse]
  rcases outcome : first.run start with ⟨_ | value, middle⟩
  · rw [outcome] at unchanged
    rw [show middle = start from unchanged]
    rfl
  · rfl

/-- Choices settle alike when their first rules find alike and their second
rules settle alike. -/
theorem Rule.IsAtomic.settled_orElse_congr
    (atomic : first.IsAtomic Extends)
    (atomic' : first'.IsAtomic Extends')
    (firstSame : first.found start = first'.found start)
    (secondSame : second.settled start = second'.settled start) :
    (first <|> second).settled start = (first' <|> second').settled start := by
  rw [settled, settled, atomic.found_orElse, atomic'.found_orElse, firstSame]
  rcases first'.found start with _ | result
  · exact secondSame
  · rfl

/-- Where the text is blocked the alternative that takes nothing is not
settled. -/
theorem Rule.IsAtomic.settled_orElse_pure
    {value : α}
    (atomic : first.IsAtomic Extends)
    (isBlocked : blocked start.rest = true) :
    (first <|> pure value).settled start = first.settled start := by
  rw [settled, settled, atomic.found_orElse, found_pure]
  rcases first.found start with _ | result
  · simp [Option.filter, isBlocked]
  · rfl

/-- What follows a rule need only be known behind its settled results when it
finds nothing behind the others. -/
theorem bind_found_eq_bind_settled
    {next : α × State σ → Option β}
    (stuck : ∀ value finish, blocked finish.rest = true →
      next (value, finish) = none) :
    (rule.found start).bind next = (rule.settled start).bind next := by
  rw [Rule.settled]
  rcases rule.found start with _ | ⟨value, finish⟩
  · rfl
  · rcases isBlocked : blocked finish.rest with _ | _
    · simp [Option.filter, isBlocked]
    · simp [Option.filter, isBlocked, stuck value finish isBlocked]

/-- Two sequences have the same settled results when their first rules have,
nothing follows a blocked result in either, and the same follows a settled
one. -/
theorem settled_bind_congr
    {next next' : α → Rule σ β}
    (same : first.settled start = first'.settled start)
    (stuck : ∀ value finish, blocked finish.rest = true →
      (next value).settled finish = none)
    (stuck' : ∀ value finish, blocked finish.rest = true →
      (next' value).settled finish = none)
    (nextSame : ∀ value finish, first'.run start = (some value, finish) →
      (next value).settled finish = (next' value).settled finish) :
    (first >>= next).settled start = (first' >>= next').settled start := by
  rw [settled_bind, settled_bind, bind_found_eq_bind_settled stuck,
    bind_found_eq_bind_settled stuck', same]
  apply Option.bind_congr
  rintro ⟨value, finish⟩ settled
  exact nextSame value finish (Rule.settled_eq_some_iff.mp settled).1

/-- Two sequences find the same when their first rules have the same settled
results and the same rule follows, which finds nothing behind a blocked
result. -/
theorem found_bind_congr
    {next : α → Rule σ β}
    (same : first.settled start = first'.settled start)
    (stuck : ∀ value finish, blocked finish.rest = true →
      (next value).found finish = none) :
    (first >>= next).found start = (first' >>= next).found start := by
  rw [found_bind, found_bind, bind_found_eq_bind_settled stuck,
    bind_found_eq_bind_settled stuck, same]

section

variable
  {reader : Token.Reader α}
  {next next' : α → Rule σ β}

/-- What follows a token need only be known behind that token. -/
theorem bind_found_token_congr
    {follow follow' : α × State σ → Option β}
    (same : ∀ value rest, reader start.rest = some (value, rest) →
      follow (value, { start with rest }) =
        follow' (value, { start with rest })) :
    ((token reader).found start).bind follow =
      ((token reader).found start).bind follow' := by
  rw [found_token]
  rcases read : reader start.rest with _ | ⟨value, rest⟩
  · rfl
  · exact same value rest read

/-- Two sequences find the same when the same follows a token in both. -/
theorem found_bind_token_congr
    (same : ∀ value rest, reader start.rest = some (value, rest) →
      (next value).found { start with rest } =
        (next' value).found { start with rest }) :
    (token reader >>= next).found start =
      (token reader >>= next').found start := by
  rw [found_bind, found_bind]
  exact bind_found_token_congr same

/-- Two sequences have the same settled results when the same follows a token in
both. -/
theorem settled_bind_token_congr
    (same : ∀ value rest, reader start.rest = some (value, rest) →
      (next value).settled { start with rest } =
        (next' value).settled { start with rest }) :
    (token reader >>= next).settled start =
      (token reader >>= next').settled start := by
  rw [settled_bind, settled_bind]
  exact bind_found_token_congr same

end

end Grammar

end LineCalculator
