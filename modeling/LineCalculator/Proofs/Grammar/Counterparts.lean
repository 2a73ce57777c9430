import LineCalculator.Proofs.Grammar.CoupledStatements
import LineCalculator.Proofs.Grammar.StagedAttempts
import LineCalculator.Proofs.Number.NumeralReading
import LineCalculator.Proofs.Token.KnownName

/-!
# Values while reading

The value of a name is asked for while a statement is read: a step before a name
stands for a literal, which is the value after that step. It is asked for
nowhere else. Scopes with the same names are coupled whatever the values of the
names, and the trees that they read differ in these literals only. Which step a
literal comes from is a matter of the steps staged up to it, so a literal that
is the value after a staged step remains one when more steps are staged.
-/

namespace LineCalculator

/-- A value that is denoted by a numeral standing in a text. -/
def Token.IsNumeralIn (text : List Char) (value : Float) : Prop :=
  ∃ numeral : Numeral, numeral.WellFormed ∧ numeral.characters <:+: text ∧
    numeral.toFloat = value

/-- A number that is read where a rest of a text begins is denoted by a numeral
of that text. -/
theorem Token.isNumeralIn_of_number
    {text rest after : List Char}
    {value : Float}
    (isRest : rest <:+ text)
    (read : number rest = some (value, after)) :
    IsNumeralIn text value := by
  obtain ⟨numeral, wellFormed, denotes, split⟩ := exists_numeral_of_number read
  have front : numeral.characters <+: skipBlanks rest := ⟨after, split⟩
  have inText : skipBlanks rest <:+: text :=
    ((skipBlanks_suffix rest).trans isRest).isInfix
  exact ⟨numeral, wellFormed, front.isInfix.trans inText, denotes⟩

namespace Environment

/-- One more step on a name steps the value that the name has. -/
theorem valueAfter_append_step
    (environment : Environment)
    (steps : List StagedStep)
    (name : String)
    (step : Step) :
    environment.valueAfter (steps ++ [⟨name, step⟩]) name =
      step.apply (environment.valueAfter steps name) := by
  simp [valueAfter, List.filter_append, List.foldl_append]

end Environment

namespace Expr

variable
  {text : List Char}
  {left right : Environment}
  {steps steps' : List StagedStep}
  {tree tree' : Expr}

/-- Two trees that are alike but for the literals of steps before names. Such a
literal is the value that its name has after a staged step and those before it,
with the values of one environment in one tree and of the other environment in
the other. All other literals are the same in both trees and denoted by numerals
of the text. -/
inductive Counterpart
    (text : List Char)
    (left right : Environment)
    (steps : List StagedStep) : Expr → Expr → Prop
  | number {value}
      (inText : Token.IsNumeralIn text value) :
      Counterpart text left right steps (.literal value) (.literal value)
  | stepped {before staged}
      (isFront : before ++ [staged] <+: steps) :
      Counterpart text left right steps
        (.literal (left.valueAfter (before ++ [staged]) staged.name))
        (.literal (right.valueAfter (before ++ [staged]) staged.name))
  | var (name : String) :
      Counterpart text left right steps (.var name) (.var name)
  | postStep (name : String) (step : Step) :
      Counterpart text left right steps (.postStep name step)
        (.postStep name step)
  | binary (operator : Operator) {first first' second second'}
      (firsts : Counterpart text left right steps first first')
      (seconds : Counterpart text left right steps second second') :
      Counterpart text left right steps (.binary operator first second)
        (.binary operator first' second')
  | assignment (target : String) {value value'}
      (values : Counterpart text left right steps value value') :
      Counterpart text left right steps (.assignment target value)
        (.assignment target value')
  | call (function : String) {argument argument'}
      (arguments : Counterpart text left right steps argument argument') :
      Counterpart text left right steps (.call function argument)
        (.call function argument')

/-- The literals of a step that has just been staged are counterparts. -/
theorem Counterpart.of_step
    (steps : List StagedStep)
    (name : String)
    (step : Step) :
    Counterpart text left right (steps ++ [⟨name, step⟩])
      (.literal (step.apply (left.valueAfter steps name)))
      (.literal (step.apply (right.valueAfter steps name))) := by
  rw [← left.valueAfter_append_step, ← right.valueAfter_append_step]
  exact .stepped List.prefix_rfl

/-- Steps that are staged later do not change what is a counterpart. -/
theorem Counterpart.mono
    (counterpart : tree.Counterpart text left right steps tree')
    (isFront : steps <+: steps') :
    tree.Counterpart text left right steps' tree' := by
  induction counterpart with
  | number inText => exact .number inText
  | stepped stagedFront => exact .stepped (stagedFront.trans isFront)
  | var name => exact .var name
  | postStep name step => exact .postStep name step
  | binary operator _ _ firstsHypothesis secondsHypothesis =>
      exact .binary operator firstsHypothesis secondsHypothesis
  | assignment target _ valuesHypothesis =>
      exact .assignment target valuesHypothesis
  | call function _ argumentsHypothesis => exact .call function argumentsHypothesis

/-- Counterparts are equal when both environments have the same values for the
names of the staged steps. -/
theorem Counterpart.eq_of_agree
    (counterpart : tree.Counterpart text left right steps tree')
    (agree : ∀ staged ∈ steps,
      left.lookup staged.name = right.lookup staged.name) :
    tree = tree' := by
  induction counterpart with
  | number _ | var _ | postStep _ _ => rfl
  | @stepped before staged isFront =>
      have member : staged ∈ steps := isFront.subset (by simp)
      rw [Environment.valueAfter, Environment.valueAfter, agree staged member]
  | binary operator _ _ firstsHypothesis secondsHypothesis =>
      rw [firstsHypothesis, secondsHypothesis]
  | assignment target _ valuesHypothesis => rw [valuesHypothesis]
  | call function _ argumentsHypothesis => rw [argumentsHypothesis]

end Expr

namespace Grammar

variable {left right : Environment}

/-- Rests of one text and staged steps correspond when they are equal, and trees
when they are counterparts. -/
def Correspondence.revalued
    (text : List Char)
    (left right : Environment) :
    Correspondence (Scope.staging left) (Scope.staging right) where
  Text rest rest' := rest = rest' ∧ rest <:+ text
  Record := Eq
  Tree := Expr.Counterpart text left right
  LeftExtends := Appends left.names
  RightExtends := Appends right.names

/-- Steps on the same names can be read in both. -/
theorem Correspondence.readable_revalued (text : List Char) :
    (revalued text left right).Readable :=
  readable_of_sameText (fun isRest later => later.trans isRest) rfl

/-- Trees made in the same way of counterparts are counterparts. -/
theorem Correspondence.congruent_revalued (text : List Char) :
    (revalued text left right).Congruent where
  later := by
    rintro steps _ ⟨added, rfl, -⟩ tree tree' counterpart
    exact counterpart.mono (List.prefix_append steps added)
  number := by
    rintro rest _ ⟨rfl, isRest⟩ value after read steps
    exact .number (Token.isNumeralIn_of_number isRest read)
  var _ name := .var name
  binary operator _ _ _ _ _ firsts seconds := .binary operator firsts seconds
  assignment target _ _ _ values := .assignment target values
  call function _ _ _ arguments := .call function arguments

/-- The two scopes know the same names. -/
theorem Correspondence.sameNames_revalued
    (text : List Char)
    (sameNames : ∀ name, name ∈ left.names ↔ name ∈ right.names) :
    (revalued text left right).SameNames := by
  have bound (name : String) :
      name ∈ left.namesByLength ↔ name ∈ right.namesByLength := by
    rw [Environment.mem_namesByLength, Environment.mem_namesByLength]
    exact sameNames name
  refine ⟨?_, bound, ?_, ?_⟩
  · rintro rest _ ⟨rfl, isRest⟩
    have sameRead := Token.anyOf_eq_of_longestFirst
      left.longestFirst_namesByLength right.longestFirst_namesByLength bound rest
    have consumes := Token.consumes_anyOf id left.namesByLength
    have passes {rest later : List Char}
        (isRest : rest <:+ text)
        (isLater : later <:+ rest) :
        later <:+ text :=
      isLater.trans isRest
    exact sameRead ▸ consumes.agree_self passes isRest
  · rintro steps _ rfl name - step
    exact ⟨rfl, .of_step steps name step⟩
  · exact fun _ name step => .postStep name step

/-- The staging scopes of environments with the same names are coupled. -/
def revalued
    (text : List Char)
    (sameNames : ∀ name, name ∈ left.names ↔ name ∈ right.names) :
    Coupling (Scope.staging left) (Scope.staging right) where
  toCorrespondence := .revalued text left right
  toLawful :=
    (Correspondence.sameNames_revalued text sameNames).lawful
      ⟨reversible_staging left, reversible_staging right⟩
      (Correspondence.readable_revalued text)
      (Correspondence.congruent_revalued text)

end Grammar

namespace Statement

/-- With the same names bound, a text is read twice as none or as statements
with the same steps and with trees that are counterparts. -/
theorem parse?_counterparts
    (text : String)
    {left right : Environment}
    (sameNames : ∀ name, name ∈ left.names ↔ name ∈ right.names) :
    Option.Rel
      (fun statement statement' =>
        statement.steps = statement'.steps ∧
        statement.root.Counterpart text.toList left right statement.steps
          statement'.root)
      (parse? text left) (parse? text right) :=
  parse?_rel_of_coupling (Grammar.revalued text.toList sameNames)
    ⟨rfl, List.suffix_rfl⟩ rfl

/-- Names with the same values are read alike in whatever order they were
recorded. -/
theorem parse?_eq_of_lookup_eq
    (text : String)
    {left right : Environment}
    (sameNames : ∀ name, name ∈ left.names ↔ name ∈ right.names)
    (sameValues : ∀ name, left.lookup name = right.lookup name) :
    parse? text left = parse? text right := by
  have related := parse?_counterparts text sameNames
  generalize parse? text left = read at related ⊢
  generalize parse? text right = read' at related ⊢
  cases related with
  | none => rfl
  | @some statement statement' both =>
      obtain ⟨root, steps⟩ := statement
      obtain ⟨root', steps'⟩ := statement'
      obtain ⟨sameSteps, counterpart⟩ := both
      have sameRoot : root = root' := counterpart.eq_of_agree fun staged _ =>
        sameValues staged.name
      rw [sameRoot, show steps = steps' from sameSteps]

/-- Values do not influence how a text is read. With the same names bound, to
whatever values, a text is no statement in both environments, or a statement
with the same steps before names, and its trees differ at most in the literals
of these steps. They do not differ at all when both environments have the same
values for the names of the steps. -/
theorem values_do_not_influence_reading
    (text : String)
    (left right : Environment)
    (sameNames : ∀ name, name ∈ left.names ↔ name ∈ right.names) :
    Option.Rel
      (fun statement statement' =>
        statement.steps = statement'.steps ∧
        statement.root.Counterpart text.toList left right statement.steps
          statement'.root ∧
        ((∀ staged ∈ statement.steps,
            left.lookup staged.name = right.lookup staged.name) →
          statement.root = statement'.root))
      (parse? text left) (parse? text right) := by
  have related := parse?_counterparts text sameNames
  generalize parse? text left = read at related ⊢
  generalize parse? text right = read' at related ⊢
  cases related with
  | none => exact .none
  | some both =>
      obtain ⟨steps, counterpart⟩ := both
      exact .some ⟨steps, counterpart, counterpart.eq_of_agree⟩

/-- The statement `c = ++a * 3 + b++ - --a` is read with the same steps whatever
`a` and `b` are. The literals of its two steps differ, the numeral does not. -/
theorem values_do_not_influence_reading_with_two_steps :
    let left : Environment := ⟨[⟨"a", 1.0⟩, ⟨"b", 2.0⟩]⟩
    let right : Environment := ⟨[⟨"b", 5.0⟩, ⟨"a", 10.0⟩]⟩
    let text := "c = ++a * 3 + b++ - --a"
    let tree (first second : Float) : Expr :=
      .assignment "c" (.binary .subtraction
        (.binary .addition
          (.binary .multiplication (.literal first) (.literal 3.0))
          (.postStep "b" .increment))
        (.literal second))
    let steps : List StagedStep := [⟨"a", .increment⟩, ⟨"a", .decrement⟩]
    (∀ name, name ∈ left.names ↔ name ∈ right.names) ∧
      parse? text left = some ⟨tree 2.0 1.0, steps⟩ ∧
      parse? text right = some ⟨tree 11.0 10.0, steps⟩ ∧
      (tree 2.0 1.0).Counterpart text.toList left right steps
        (tree 11.0 10.0) := by
  intro left right text tree steps
  have sameNames (name : String) : name ∈ left.names ↔ name ∈ right.names := by
    simp [left, right, Environment.names, or_comm]
  have sorted : left.namesByLength = ["a", "b"] := by
    change ["a", "b"].mergeSort _ = _
    simp +decide [List.mergeSort]
  have sorted' : right.namesByLength = ["b", "a"] := by
    change ["b", "a"].mergeSort _ = _
    simp +decide [List.mergeSort]
  have parsed : parse? text left = some ⟨tree 2.0 1.0, steps⟩ := by
    rw [parse?_of_namesByLength sorted]
    decide +kernel
  have parsed' : parse? text right = some ⟨tree 11.0 10.0, steps⟩ := by
    rw [parse?_of_namesByLength sorted']
    decide +kernel
  have related := values_do_not_influence_reading text left right sameNames
  rw [parsed, parsed'] at related
  cases related with
  | some both => exact ⟨sameNames, parsed, parsed', both.2.1⟩

end Statement

end LineCalculator
