import LineCalculator.Proofs.Expr.PostSteps
import LineCalculator.Proofs.Grammar.WholeNames

/-!
# Names beside steps

A bound name is read as soon as it stands in front of the text, longer names
first and without regard to what follows it. In a statement it nevertheless
counts only as a whole: every step of a statement has a place in the text where
its symbol stands on one side of its name and where the name is all there is of
an identifier. The places come in the order of the steps, each behind the one
before it.
-/

namespace LineCalculator

open Token (IsWhole StartsWord Stops)

namespace Grammar

/-- The side of its name on which the symbol of a step stands. -/
inductive Side
  | before
  | after
  deriving DecidableEq

/-- The steps of a phrase whose symbols stand on a given side, from left to
right. -/
def Phrase.steps (side : Side) : Phrase → List StagedStep
  | .number _ | .var _ => []
  | .stepBefore step name => if side = .before then [⟨name, step⟩] else []
  | .stepAfter name step => if side = .after then [⟨name, step⟩] else []
  | .call _ argument => argument.steps side
  | .binary _ left right => left.steps side ++ right.steps side
  | .assignment _ value | .operatorAssignment _ _ value => value.steps side

/-- The steps before names are staged and the steps after names are in the
tree. -/
theorem Phrase.steps_read
    (phrase : Phrase)
    (environment : Environment)
    (steps : List StagedStep) :
    (phrase.read environment steps).2 = steps ++ phrase.steps .before ∧
      (phrase.read environment steps).1.postSteps = phrase.steps .after := by
  induction phrase generalizing steps with
  | number _ | var _ | stepAfter _ _ => exact ⟨by simp [read, Phrase.steps], rfl⟩
  | stepBefore step name => exact ⟨rfl, rfl⟩
  | call _ argument argumentHypothesis => exact argumentHypothesis steps
  | binary operator left right leftHypothesis rightHypothesis =>
      obtain ⟨leftStaged, leftTree⟩ := leftHypothesis steps
      obtain ⟨rightStaged, rightTree⟩ :=
        rightHypothesis (left.read environment steps).2
      simp only [read, Phrase.steps, Expr.postSteps]
      exact ⟨by rw [rightStaged, leftStaged, List.append_assoc],
        by rw [leftTree, rightTree]⟩
  | assignment _ value valueHypothesis => exact valueHypothesis steps
  | operatorAssignment _ _ value valueHypothesis => exact valueHypothesis steps

/-- A step at a place in a text, which is told by what remains of the text
behind the name. -/
structure StepPlace where
  side : Side
  staged : StagedStep
  behind : List Char

namespace StepPlace

/-- The steps at places whose symbols stand on a given side. -/
def steps (side : Side) (places : List StepPlace) : List StagedStep :=
  (places.filter fun place => place.side = side).map StepPlace.staged

/-- The symbol of the step stands on its side of the name, with nothing but
blanks in between. -/
def BesideSymbol (text : List Char) (place : StepPlace) : Prop :=
  match place.side with
  | .before => ∃ start middle, start <:+ text ∧
      Token.literal place.staged.step.symbol start = some ((), middle) ∧
      place.staged.name.toList ++ place.behind = skipBlanks middle
  | .after => ∃ rest,
      Token.literal place.staged.step.symbol place.behind = some ((), rest)

/-- The name at a place is a maximal run of letters and digits of the text, and
the symbol of the step stands beside it. -/
structure IsWhole (text : List Char) (place : StepPlace) : Prop where
  nonempty : place.staged.name ≠ ""
  alphanumeric : ∀ character ∈ place.staged.name.toList,
    character.isAlphanum = true
  front : ∃ front, front ++ (place.staged.name.toList ++ place.behind) = text ∧
    ∀ last ∈ front.getLast?, last.isAlphanum = false
  back : ∀ first ∈ place.behind.head?, first.isAlphanum = false
  symbol : place.BesideSymbol text

theorem isWhole_of_name
    {text : List Char}
    {place : StepPlace}
    (whole : Token.IsWhole text start place.behind place.staged.name)
    (symbol : place.BesideSymbol text) :
    place.IsWhole text := by
  have startsWord := whole.startsWord.behindBlanks
  rw [← whole.split] at startsWord
  exact
    { nonempty := by simpa using whole.isIdentifier.ne_nil
      alphanumeric := fun _ => whole.isIdentifier.isAlphanum
      front := startsWord
      back := whole.stops
      symbol }

end StepPlace

variable
  {text start middle rest inner behind : List Char}
  {name : String}
  {phrase left right : Phrase}
  {places leftPlaces rightPlaces : List StepPlace}

/-- The steps of a phrase are at places between the two rests of the text where
it stands, one behind the other. -/
structure Locates
    (text start rest : List Char)
    (phrase : Phrase)
    (places : List StepPlace) : Prop where
  steps : ∀ side, StepPlace.steps side places = phrase.steps side
  ordered : places.Pairwise fun earlier later =>
    later.behind.length < earlier.behind.length
  within : ∀ place ∈ places,
    rest.length ≤ place.behind.length ∧ place.behind.length < start.length
  whole : ∀ place ∈ places, place.IsWhole text

/-- A phrase without steps has no places. -/
theorem locates_nil
    (noSteps : ∀ side, phrase.steps side = []) :
    Locates text start rest phrase [] :=
  ⟨fun side => (noSteps side).symm, .nil, nofun, nofun⟩

/-- A phrase with one step has the place of that step. -/
theorem locates_singleton
    {place : StepPlace}
    (steps : ∀ side, StepPlace.steps side [place] = phrase.steps side)
    (lower : rest.length ≤ place.behind.length)
    (upper : place.behind.length < start.length)
    (whole : place.IsWhole text) :
    Locates text start rest phrase [place] :=
  ⟨steps, List.pairwise_singleton _ _,
    List.forall_mem_singleton.mpr ⟨lower, upper⟩,
    List.forall_mem_singleton.mpr whole⟩

/-- More text on either side of a phrase does not move its steps. -/
theorem Locates.widen
    (locates : Locates text inner behind phrase places)
    (front : inner <:+ start)
    (back : rest <:+ behind) :
    Locates text start rest phrase places := by
  refine ⟨locates.steps, locates.ordered, ?_, locates.whole⟩
  intro place member
  obtain ⟨lower, upper⟩ := locates.within place member
  exact ⟨back.length_le.trans lower, upper.trans_le front.length_le⟩

/-- The steps of the right operand are behind those of the left one. -/
theorem Locates.binary
    (lefts : Locates text start middle left leftPlaces)
    (rights : Locates text middle rest right rightPlaces)
    (leftSuffix : middle <:+ start)
    (rightSuffix : rest <:+ middle)
    (operator : Operator) :
    Locates text start rest (.binary operator left right)
      (leftPlaces ++ rightPlaces) where
  steps side := by
    have leftSteps := lefts.steps side
    have rightSteps := rights.steps side
    simp only [StepPlace.steps, Phrase.steps] at leftSteps rightSteps ⊢
    rw [List.filter_append, List.map_append, leftSteps, rightSteps]
  ordered := by
    refine List.pairwise_append.mpr ⟨lefts.ordered, rights.ordered, ?_⟩
    intro earlier isLeft later isRight
    exact (rights.within later isRight).2.trans_le
      (lefts.within earlier isLeft).1
  within := List.forall_mem_append.mpr
    ⟨(lefts.widen List.suffix_rfl rightSuffix).within,
      (rights.widen leftSuffix List.suffix_rfl).within⟩
  whole := List.forall_mem_append.mpr ⟨lefts.whole, rights.whole⟩

/-- The steps of a phrase have places where the phrase stands. -/
theorem Stands.exists_places
    (stands : Stands text start rest phrase) :
    ∃ places, Locates text start rest phrase places := by
  induction stands with
  | number _ => exact ⟨[], locates_nil fun _ => rfl⟩
  | var _ => exact ⟨[], locates_nil fun _ => rfl⟩
  | @stepBefore step name start middle rest isRest symbolRead whole =>
      let place : StepPlace := ⟨.before, ⟨name, step⟩, rest⟩
      have beside : place.BesideSymbol text :=
        ⟨start, middle, isRest, symbolRead, whole.split⟩
      have symbolTaken := Token.consumes_literal _ _ _ _ symbolRead
      refine ⟨[place], locates_singleton ?_ (Nat.le_refl _)
        (whole.leaves.shorter.trans symbolTaken.shorter)
        (StepPlace.isWhole_of_name whole beside)⟩
      rintro (_ | _) <;> rfl
  | @stepAfter name step start middle rest whole symbolRead =>
      let place : StepPlace := ⟨.after, ⟨name, step⟩, middle⟩
      have beside : place.BesideSymbol text := ⟨rest, symbolRead⟩
      have symbolTaken := Token.consumes_literal _ _ _ _ symbolRead
      refine ⟨[place], locates_singleton ?_ symbolTaken.suffix.length_le
        whole.leaves.shorter (StepPlace.isWhole_of_name whole beside)⟩
      rintro (_ | _) <;> rfl
  | call _ argumentHypothesis =>
      obtain ⟨places, locates⟩ := argumentHypothesis
      exact ⟨places, { locates with }⟩
  | @binary operator _ _ _ _ _ leftStands rightStands leftHypothesis
      rightHypothesis =>
      obtain ⟨leftPlaces, lefts⟩ := leftHypothesis
      obtain ⟨rightPlaces, rights⟩ := rightHypothesis
      exact ⟨leftPlaces ++ rightPlaces,
        lefts.binary rights leftStands.suffix rightStands.suffix operator⟩
  | assignment whole _ valueHypothesis =>
      obtain ⟨places, locates⟩ := valueHypothesis
      have wider := locates.widen whole.leaves.suffix List.suffix_rfl
      exact ⟨places, { wider with }⟩
  | operatorAssignment whole _ valueHypothesis =>
      obtain ⟨places, locates⟩ := valueHypothesis
      have wider := locates.widen whole.leaves.suffix List.suffix_rfl
      exact ⟨places, { wider with }⟩
  | within front _ back innerHypothesis =>
      obtain ⟨places, locates⟩ := innerHypothesis
      exact ⟨places, locates.widen front back⟩

end Grammar

namespace Statement

open Grammar (StepPlace State knownName)

/-- Of the known names that stand behind the blanks the longest one is read, and
none only where none stands there. When all of them are identifiers, the steps
of a statement are at places of the text, one behind the other, where the symbol
of the step stands beside the name and the name is a maximal run of letters and
digits: the steps before names that the statement has, and the steps after names
that its tree has, all in their order. -/
theorem known_names_are_read_longest_and_whole (environment : Environment) :
    (∀ start : State (List StagedStep),
      match (knownName (.staging environment)).run start with
      | (some name, finish) =>
          Token.IsLongestFront environment.names (skipBlanks start.rest) name ∧
            name.toList ++ finish.rest = skipBlanks start.rest ∧
            finish.steps = start.steps
      | (none, finish) =>
          finish = start ∧ ∀ name ∈ environment.names, name ≠ "" →
            ¬ name.toList <+: skipBlanks start.rest) ∧
    ((∀ name ∈ environment.names, Token.IsIdentifier name.toList) →
      ∀ (text : String) (statement : Statement),
        parse? text environment = some statement →
          ∃ places : List StepPlace,
            StepPlace.steps .before places = statement.steps ∧
            StepPlace.steps .after places = statement.root.postSteps ∧
            places.Pairwise (fun earlier later =>
              later.behind.length < earlier.behind.length) ∧
            ∀ place ∈ places, place.IsWhole text.toList) := by
  constructor
  · intro start
    have sorted := environment.longestFirst_namesByLength
    simp only [knownName, Grammar.run_token]
    rcases read : Token.anyOf id (Scope.staging environment).names start.rest
      with _ | ⟨name, rest⟩
    · refine ⟨rfl, fun name member nonempty => ?_⟩
      exact Token.not_isPrefix_of_anyOf read
        (Environment.mem_namesByLength.mpr member) nonempty
    · have longest := Token.isLongestFront_of_anyOf sorted read
      exact ⟨longest.congr fun _ => Environment.mem_namesByLength,
        Token.split_of_anyOf read, rfl⟩
  · intro identifiers text statement parsed
    obtain ⟨rest, phrase, stands, value⟩ :=
      Grammar.exists_stands_of_parse? identifiers parsed
    obtain ⟨places, locates⟩ := stands.exists_places
    obtain ⟨staged, tree⟩ := phrase.steps_read environment []
    rw [value] at staged tree
    refine ⟨places, ?_, ?_, locates.ordered, locates.whole⟩
    · exact (locates.steps .before).trans staged.symm
    · exact (locates.steps .after).trans tree.symm

/-- The bound name `a` stands in front of both `ab` and `a1`, but `++ab + a1--`
steps the longer names, each of which is a whole identifier of the text. -/
theorem known_names_are_read_longest_and_whole_in_sum :
    let environment : Environment :=
      ⟨[⟨"a", 1.0⟩, ⟨"ab", 2.0⟩, ⟨"a1", 3.0⟩]⟩
    let text := "++ab + a1--"
    let root : Expr :=
      .binary .addition (.literal 3.0) (.postStep "a1" .decrement)
    (∀ name ∈ environment.names, Token.IsIdentifier name.toList) ∧
      parse? text environment = some ⟨root, [⟨"ab", .increment⟩]⟩ ∧
      ∃ places : List StepPlace,
        StepPlace.steps .before places = [⟨"ab", .increment⟩] ∧
        StepPlace.steps .after places = [⟨"a1", .decrement⟩] ∧
        ∀ place ∈ places, place.IsWhole text.toList := by
  intro environment text root
  have identifiers :
      ∀ name ∈ environment.names, Token.IsIdentifier name.toList := by
    decide
  have sorted : environment.namesByLength = ["ab", "a1", "a"] := by
    change ["a", "ab", "a1"].mergeSort _ = _
    simp +decide [List.mergeSort]
  have parsed : parse? text environment =
      some ⟨root, [⟨"ab", .increment⟩]⟩ := by
    rw [parse?_of_namesByLength sorted]
    decide +kernel
  obtain ⟨places, before, after, -, whole⟩ :=
    (known_names_are_read_longest_and_whole environment).2 identifiers text _
      parsed
  exact ⟨identifiers, parsed, places, before, after, whole⟩

end Statement

end LineCalculator
