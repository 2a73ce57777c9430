import LineCalculator.Proofs.Expr.Mentions
import LineCalculator.Proofs.Grammar.FactorCompleteness
import LineCalculator.Proofs.Grammar.Settled
import LineCalculator.Proofs.Token.WholeWord

/-!
# Interchangeable environments

Two environments are interchangeable for a text when they agree on its words. A
bound name that is a mere part of a word may be found in one of them and not in
the other: `a` is found in `++ab`, before the `b`. Then a letter or digit
follows, so the result is blocked, and the rules find the same settled results
with both environments. Statements take up the whole text and are read alike.
-/

namespace LineCalculator

open Token (IsIdentifier Stops StartsWord first?)

/-- The environments have identifiers for names and agree on the words of a
text. -/
structure Environment.Interchangeable
    (text : List Char)
    (left right : Environment) : Prop where
  leftIdentifiers : ∀ name ∈ left.names, IsIdentifier name.toList
  rightIdentifiers : ∀ name ∈ right.names, IsIdentifier name.toList
  agree : left.AgreeOn (words text) right

namespace Environment.Interchangeable

variable
  {text rest after : List Char}
  {left right : Environment}
  {name : String}

theorem symm (both : Interchangeable text left right) :
    Interchangeable text right left :=
  ⟨both.rightIdentifiers, both.leftIdentifiers, both.agree.symm⟩

/-- A bound name that is read up to the end of a word is read in both. -/
theorem readName
    (both : Interchangeable text left right)
    (startsWord : StartsWord text rest)
    (stops : Stops Char.isAlphanum after)
    (read : Token.anyOf id left.namesByLength rest = some (name, after)) :
    name ∈ words text ∧
      Token.anyOf id right.namesByLength rest = some (name, after) := by
  have bound : name ∈ left.names :=
    mem_namesByLength.mp (Token.mem_of_anyOf read)
  have split : name.toList ++ after = skipBlanks rest :=
    Token.split_of_anyOf read
  have mentioned :=
    startsWord.mem_words (both.leftIdentifiers name bound) stops split
  have bound' : name ∈ right.names :=
    (both.agree.mem_names_iff mentioned).mp bound
  refine ⟨mentioned, Token.anyOf_eq_some_of_longestFirst ?_
    right.longestFirst_namesByLength (mem_namesByLength.mpr bound') stops split⟩
  intro known member
  exact both.rightIdentifiers known (mem_namesByLength.mp member)

end Environment.Interchangeable

namespace Grammar

variable
  {text : List Char}
  {left right : Environment}
  {start finish : State (List StagedStep)}
  {entries entries' : Entries (List StagedStep)}
  {bound : Nat}

/-- Where a step is found its mark stands first. -/
theorem first?_of_stepSymbol
    {rest after : List Char}
    {step : Step}
    (read : Token.anyOf Step.symbol Step.all rest = some (step, after)) :
    first? rest = some step.mark := by
  rw [first?, ← Token.split_of_anyOf read, step.symbol_toList]
  rfl

theorem stepAfter_run_of_interchangeable
    (both : Environment.Interchangeable text left right)
    (startsWord : StartsWord text start.rest)
    {value : Expr}
    (outcome : (stepAfter (.staging left)).run start = (some value, finish)) :
    (stepAfter (.staging right)).run start = (some value, finish) := by
  obtain ⟨name, middle, nameRead, later⟩ :=
    bind_eq_some_iff.mp (attempt_eq_some_iff.mp outcome)
  obtain ⟨step, _, symbolRead, last⟩ := bind_eq_some_iff.mp later
  obtain ⟨read, sameSteps⟩ := token_eq_some_iff.mp nameRead
  have stops : Stops Char.isAlphanum middle.rest := by
    apply Token.stops_of_first?
    rw [first?_of_stepSymbol (token_eq_some_iff.mp symbolRead).1]
    rintro _ ⟨⟩
    cases step <;> decide
  obtain ⟨-, read'⟩ := both.readName startsWord stops read
  have nameRead' : (knownName (.staging right)).run start = (some name, middle) :=
    token_eq_some_iff.mpr ⟨read', sameSteps⟩
  exact attempt_eq_some_iff.mpr (bind_eq_some_iff.mpr
    ⟨name, middle, nameRead', bind_eq_some_iff.mpr ⟨step, _, symbolRead, last⟩⟩)

/-- The same step behind a name is found in both environments. -/
theorem found_stepAfter
    (both : Environment.Interchangeable text left right)
    (startsWord : StartsWord text start.rest) :
    (stepAfter (.staging left)).found start =
      (stepAfter (.staging right)).found start :=
  found_eq_of_imp
    (fun _ _ => stepAfter_run_of_interchangeable both startsWord)
    fun _ _ => stepAfter_run_of_interchangeable both.symm startsWord

theorem stepBefore_run_of_interchangeable
    (both : Environment.Interchangeable text left right)
    (suffix : start.rest <:+ text)
    {value : Expr}
    (outcome : (stepBefore (.staging left)).run start = (some value, finish))
    (free : blocked finish.rest = false) :
    (stepBefore (.staging right)).run start = (some value, finish) := by
  obtain ⟨step, between, symbolRead, later⟩ :=
    bind_eq_some_iff.mp (attempt_eq_some_iff.mp outcome)
  obtain ⟨name, middle, nameRead, last⟩ := bind_eq_some_iff.mp later
  obtain ⟨read, sameSteps⟩ := token_eq_some_iff.mp nameRead
  have rests : middle.rest = finish.rest :=
    congrArg (fun result => result.2.rest) last
  have startsWord : StartsWord text between.rest :=
    (Token.isSymbol_step step).startsWord suffix
      (Token.split_of_anyOf (token_eq_some_iff.mp symbolRead).1)
  have stops := stops_of_not_blocked (rests ▸ free)
  obtain ⟨mentioned, read'⟩ := both.readName startsWord stops read
  have nameRead' : (knownName (.staging right)).run between =
      (some name, middle) :=
    token_eq_some_iff.mpr ⟨read', sameSteps⟩
  have values := both.agree.valueAfter_eq mentioned middle.steps
  refine attempt_eq_some_iff.mpr (bind_eq_some_iff.mpr
    ⟨step, between, symbolRead, bind_eq_some_iff.mpr
      ⟨name, middle, nameRead', ?_⟩⟩)
  rw [← last]
  simp only [Rule.run_bind, Rule.run_get, Rule.run_set, Rule.run_pure]
  simp only [Scope.staging, values]

/-- The same step in front of a name is found in both environments, unless what
is left is blocked. -/
theorem settled_stepBefore
    (both : Environment.Interchangeable text left right)
    (suffix : start.rest <:+ text) :
    (stepBefore (.staging left)).settled start =
      (stepBefore (.staging right)).settled start :=
  settled_eq_of_imp
    (fun _ _ => stepBefore_run_of_interchangeable both suffix)
    fun _ _ => stepBefore_run_of_interchangeable both.symm suffix

end Grammar

end LineCalculator
