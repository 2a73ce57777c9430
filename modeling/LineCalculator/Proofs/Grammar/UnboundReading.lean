import LineCalculator.Proofs.Expr.PostSteps
import LineCalculator.Proofs.Grammar.CoupledStatements
import LineCalculator.Proofs.Grammar.StagedAttempts
import LineCalculator.Proofs.Grammar.Success

/-!
# Statements without bound names

Bound names are looked for wherever a factor may stand, and a bound name may be
any text at all, such as the front of a numeral or a parenthesis. It only counts
when the symbol of a step stands beside it, though, and the name in front of an
assignment only has to be bound when the symbol of an operator is part of the
assignment. Where a text holds none of these symbols, whatever was found of a
bound name is given back, so the text is read alike in all environments.
-/

namespace LineCalculator

namespace Grammar

/-- The symbols that only stand beside a bound name. -/
def boundSymbols : List String :=
  Step.all.map Step.symbol ++ Operator.all.map Operator.compoundSymbol

example : boundSymbols =
    ["++", "--", "+=", "-=", "*=", "/=", "^=", "%="] := by
  decide

/-- None of the symbols that only stand beside a bound name is in a text. -/
def NeedsNoName (text : List Char) : Prop :=
  ∀ symbol ∈ boundSymbols, ¬ symbol.toList <:+: text

instance : DecidablePred NeedsNoName :=
  fun text => inferInstanceAs
    (Decidable (∀ symbol ∈ boundSymbols, ¬ symbol.toList <:+: text))

variable
  {text rest : List Char}
  {scope : Scope σ}
  {Extends : σ → σ → Prop}
  {entries : Entries σ}
  {start : State σ}

/-- The end of a text that needs no name needs none either. -/
theorem NeedsNoName.of_suffix
    (needsNoName : NeedsNoName text)
    (isRest : rest <:+ text) :
    NeedsNoName rest :=
  fun symbol member inRest =>
    needsNoName symbol member (inRest.trans isRest.isInfix)

theorem NeedsNoName.literal_eq_none
    {symbol : String}
    (needsNoName : NeedsNoName text)
    (member : symbol ∈ boundSymbols) :
    Token.literal symbol text = none := by
  rcases found : Token.literal symbol text with _ | ⟨_, rest⟩
  · rfl
  · have split := (Token.literal_eq_some_iff.mp found).2
    have front : symbol.toList <+: skipBlanks text := ⟨rest, split⟩
    have behindBlanks := needsNoName.of_suffix (skipBlanks_suffix text)
    exact absurd front.isInfix (behindBlanks symbol member)

/-- No step is found in a text that needs no name. -/
theorem NeedsNoName.stepSymbol_eq_none (needsNoName : NeedsNoName text) :
    Token.anyOf Step.symbol Step.all text = none := by
  rcases found : Token.anyOf Step.symbol Step.all text with _ | ⟨step, rest⟩
  · rfl
  · have member : step.symbol ∈ boundSymbols :=
      List.mem_append_left _ (List.mem_map_of_mem step.mem_all)
    have here := Token.literal_of_anyOf found
    rw [needsNoName.literal_eq_none member] at here
    exact nomatch here

/-- When all alternatives leave the state alone, so does the choice between
them. -/
theorem firstM_fails
    {rule : β → Rule σ α}
    (fails : ∀ value, (rule value).run start = (none, start))
    (values : List β) :
    (values.firstM rule).run start = (none, start) := by
  induction values with
  | nil => rfl
  | cons value values valuesHypothesis =>
      change (rule value <|> values.firstM rule).run start = _
      rw [Rule.run_orElse, fails value]
      exact valuesHypothesis

section

variable
  (reversible : scope.Reversible Extends)
  (needsNoName : NeedsNoName start.rest)
include reversible needsNoName

theorem stepBefore_fails : (stepBefore scope).run start = (none, start) :=
  (isAtomic_stepBefore reversible).run_eq
    (misses_token needsNoName.stepSymbol_eq_none).bind.attempt

/-- A bound name that is found is given back, since there is no step behind it.
The name may end in front of any character, so the step is missed in every rest
of the text and not only where a word starts. -/
theorem stepAfter_fails : (stepAfter scope).run start = (none, start) := by
  refine (isAtomic_stepAfter reversible).run_eq (misses_bind ?_).attempt
  intro name middle nameRead
  obtain ⟨read, -⟩ := token_eq_some_iff.mp nameRead
  have isRest := (Token.consumes_anyOf id scope.names _ _ _ read).suffix
  have behindName := needsNoName.of_suffix isRest
  exact (misses_token behindName.stepSymbol_eq_none).bind

theorem operatorAssignment_fails (target : String) (operator : Operator) :
    (operatorAssignment scope entries target operator).run start =
      (none, start) := by
  have member : operator.compoundSymbol ∈ boundSymbols :=
    List.mem_append_right _ (List.mem_map_of_mem operator.mem_all)
  have missing := needsNoName.literal_eq_none member
  have back := reversible.rewind (reversible.refl start.steps)
  simp only [operatorAssignment, run_attempt, Rule.run_bind, run_token, missing,
    back]

/-- Whether the target is bound or not, there is no assignment with an
operator. -/
theorem compoundAssignment_fails (target : String) :
    (compoundAssignment scope entries target).run start = (none, start) := by
  unfold compoundAssignment
  split
  · exact firstM_fails
      (operatorAssignment_fails reversible needsNoName target) Operator.all
  · rfl

end

variable (left right : Environment)

/-- Equal texts that need no bound name correspond, and equal trees without
steps, while no step is staged in either scope. -/
def Correspondence.unbound :
    Correspondence (Scope.staging left) (Scope.staging right) where
  Text text text' := text = text' ∧ NeedsNoName text
  Record steps steps' := steps = [] ∧ steps' = []
  Tree _ tree tree' := tree = tree' ∧ tree.postSteps = []
  LeftExtends := Appends left.names
  RightExtends := Appends right.names

theorem Correspondence.congruent_unbound :
    (unbound left right).Congruent := by
  constructor
  case later => exact fun _ _ _ trees => trees
  case number => exact fun _ _ _ _ _ => ⟨rfl, rfl⟩
  case var => exact fun _ _ => ⟨rfl, rfl⟩
  case binary =>
    rintro operator steps first _ second _ ⟨rfl, noStep⟩ ⟨rfl, noStep'⟩
    exact ⟨rfl, List.append_eq_nil_iff.mpr ⟨noStep, noStep'⟩⟩
  case assignment =>
    rintro target steps value _ ⟨rfl, noStep⟩
    exact ⟨rfl, noStep⟩
  case call =>
    rintro function steps argument _ ⟨rfl, noStep⟩
    exact ⟨rfl, noStep⟩

/-- Any two environments correspond on texts that need no name. -/
theorem Correspondence.lawful_unbound : (unbound left right).Lawful := by
  have reversible : (unbound left right).Reversible :=
    ⟨reversible_staging left, reversible_staging right⟩
  have needsNoName {start start' : State (List StagedStep)}
      (states : (unbound left right).States start start') :
      NeedsNoName start.rest ∧ NeedsNoName start'.rest := by
    obtain ⟨same, needsNoName⟩ := states.rest
    exact ⟨needsNoName, same ▸ needsNoName⟩
  refine
    { toReversible := reversible
      toReadable := readable_of_sameText NeedsNoName.of_suffix rfl
      toCongruent := congruent_unbound left right
      stepBefore := ?_
      stepAfter := ?_
      compound := ?_ }
  · intro base bound
    exact rules_of_fails reversible
      (fun ⟨_, states⟩ => stepBefore_fails reversible.leftReversible
        (needsNoName states).1)
      (fun ⟨_, states⟩ => stepBefore_fails reversible.rightReversible
        (needsNoName states).2)
  · intro base bound
    exact rules_of_fails reversible
      (fun ⟨_, states⟩ => stepAfter_fails reversible.leftReversible
        (needsNoName states).1)
      (fun ⟨_, states⟩ => stepAfter_fails reversible.rightReversible
        (needsNoName states).2)
  · intro base bound entries entries' target _
    exact rules_of_fails reversible
      (fun ⟨_, states⟩ => compoundAssignment_fails reversible.leftReversible
        (needsNoName states).1 target)
      (fun ⟨_, states⟩ => compoundAssignment_fails reversible.rightReversible
        (needsNoName states).2 target)

/-- The staging scopes of any two environments are coupled on texts that need no
bound name. -/
def unbound : Coupling (Scope.staging left) (Scope.staging right) where
  toCorrespondence := .unbound left right
  toLawful := Correspondence.lawful_unbound left right

end Grammar

namespace Statement

open Grammar (NeedsNoName)

/-- A text without the symbols that only stand beside a bound name is read
alike in all environments, whatever their names are. The statement that is read,
if there is one, has no steps before its names and none after them. -/
theorem reading_without_symbols_needs_no_names
    (text : String)
    (needsNoName : NeedsNoName text.toList)
    (left right : Environment) :
    parse? text left = parse? text right ∧
    ∀ statement, parse? text left = some statement →
      statement.steps = [] ∧ statement.root.postSteps = [] := by
  have related := parse?_rel_of_coupling (Grammar.unbound left right)
    ⟨rfl, needsNoName⟩ ⟨rfl, rfl⟩
  generalize parse? text left = read at related ⊢
  generalize parse? text right = read' at related ⊢
  cases related with
  | none => exact ⟨rfl, nofun⟩
  | @some statement statement' both =>
      obtain ⟨root, steps⟩ := statement
      obtain ⟨root', steps'⟩ := statement'
      obtain ⟨⟨rfl, rfl⟩, rfl, noStep⟩ := both
      refine ⟨rfl, ?_⟩
      rintro _ ⟨⟩
      exact ⟨rfl, noStep⟩

/-- Names such as a parenthesis, a digit and the front of a call do not change
how `x = sin(2) - (a + 2)` is read. -/
theorem reading_without_symbols_needs_no_names_in_call :
    let text := "x = sin(2) - (a + 2)"
    let environment : Environment :=
      ⟨[⟨"(", 1.0⟩, ⟨"2", 5.0⟩, ⟨"sin(2) ", 3.0⟩, ⟨"x =", 4.0⟩]⟩
    NeedsNoName text.toList ∧
      parse? text environment = some ⟨.assignment "x" (.binary .subtraction
        (.call "sin" (.literal 2.0))
        (.binary .addition (.var "a") (.literal 2.0))), []⟩ := by
  intro text environment
  have needsNoName : NeedsNoName text.toList := by
    decide +kernel
  have parsed : parse? text .empty = some ⟨.assignment "x" (.binary .subtraction
      (.call "sin" (.literal 2.0))
      (.binary .addition (.var "a") (.literal 2.0))), []⟩ := by
    decide +kernel
  have alike := (reading_without_symbols_needs_no_names text needsNoName
    environment .empty).1
  exact ⟨needsNoName, alike.trans parsed⟩

end Statement

end LineCalculator
