import LineCalculator.Proofs.Grammar.CoupledRules
import LineCalculator.Statement

/-!
# Coupled calculations and statements

A scope is coupled with itself by equality, so an entry of the tied rules equals
its rule with the tied rules as entries: the guard that ties them never fails.
From this equation the calculations of coupled scopes are coupled on texts of
every length, and so are the statements.
-/

namespace LineCalculator

namespace Token

theorem agree_refl (read : Option (α × List Char)) : Agree Eq read read := by
  cases read with
  | none => exact .none
  | some found => exact .some ⟨rfl, rfl⟩

end Token

namespace Grammar

section

variable
  {left : Scope σ}
  {right : Scope τ}
  {Record : σ → τ → Prop}
  {LeftExtends : σ → σ → Prop}
  {RightExtends : τ → τ → Prop}

/-- Two scopes that bind the same names, find the same name in corresponding
texts and give a name the same value under corresponding records read the same
trees from corresponding texts. -/
theorem Correspondence.lawful_of_sameTrees
    {Text : List Char → List Char → Prop}
    (leftReversible : left.Reversible LeftExtends)
    (rightReversible : right.Reversible RightExtends)
    (read : ∀ {α : Type} {reader : Token.Reader α}, Token.IsFixed reader →
      ∀ {text text'}, Text text text' →
        Token.Agree Text (reader text) (reader text'))
    (readName : ∀ {text text'}, Text text text' →
      Token.Agree Text (Token.anyOf id left.names text)
        (Token.anyOf id right.names text'))
    (atEnd : ∀ {text text'}, Text text text' →
      Token.atEnd text = Token.atEnd text')
    (bound : ∀ name, name ∈ left.names ↔ name ∈ right.names)
    (note : ∀ {record record'}, Record record record' → ∀ name step,
      Record (left.note record name step) (right.note record' name step))
    (value : ∀ {record record'}, Record record record' → ∀ name,
      left.value record name = right.value record' name) :
    (Correspondence.mk Text Record (fun _ => Eq) LeftExtends RightExtends :
      Correspondence left right).Lawful := by
  refine SameNames.lawful ?_ ⟨leftReversible, rightReversible⟩ ⟨read, atEnd⟩ ?_
  · refine ⟨readName, bound, ?_, fun _ _ _ => rfl⟩
    intro record record' records name _ step
    exact ⟨note records name step, by rw [value records]⟩
  · constructor
    case later => exact fun _ _ _ same => same
    case number => exact fun _ _ _ _ _ => rfl
    case var => exact fun _ _ => rfl
    case binary =>
      rintro operator record first _ second _ rfl rfl
      rfl
    case assignment =>
      rintro target record value _ rfl
      rfl
    case call =>
      rintro function record argument _ rfl
      rfl

/-- When the names are tried in the same order, the same trees are read from the
same text. -/
theorem Correspondence.lawful_of_sameText
    (leftReversible : left.Reversible LeftExtends)
    (rightReversible : right.Reversible RightExtends)
    (names : left.names = right.names)
    (note : ∀ {record record'}, Record record record' → ∀ name step,
      Record (left.note record name step) (right.note record' name step))
    (value : ∀ {record record'}, Record record record' → ∀ name,
      left.value record name = right.value record' name) :
    (Correspondence.mk Eq Record (fun _ => Eq) LeftExtends RightExtends :
      Correspondence left right).Lawful := by
  refine lawful_of_sameTrees leftReversible rightReversible ?_ ?_ ?_ ?_ note
    value
  · rintro α reader - text _ rfl
    exact Token.agree_refl (reader text)
  · rintro text _ rfl
    rw [names]
    exact Token.agree_refl _
  · rintro text _ rfl
    rfl
  · intro name
    rw [names]

end

/-- The equality of texts, records and trees over one scope. -/
def Correspondence.diagonal
    (scope : Scope σ)
    (Extends : σ → σ → Prop) : Correspondence scope scope where
  Text := Eq
  Record := Eq
  Tree _ := Eq
  LeftExtends := Extends
  RightExtends := Extends

/-- A reversible scope corresponds to itself. -/
theorem Correspondence.lawful_diagonal
    {scope : Scope σ}
    {Extends : σ → σ → Prop}
    (reversible : scope.Reversible Extends) :
    (diagonal scope Extends).Lawful := by
  apply lawful_of_sameText reversible reversible rfl
  · rintro record _ rfl name step
    rfl
  · rintro record _ rfl name
    rfl

namespace Coupling

/-- A scope is coupled with itself. -/
def diagonal
    {scope : Scope σ}
    {Extends : σ → σ → Prop}
    (reversible : scope.Reversible Extends) : Coupling scope scope where
  toCorrespondence := .diagonal scope Extends
  toLawful := Correspondence.lawful_diagonal reversible

section

variable
  {scope : Scope σ}
  {Extends : σ → σ → Prop}
  {reversible : scope.Reversible Extends}

/-- Results that correspond on the diagonal are equal. -/
theorem eq_of_results
    {start : State σ}
    {result result' : Option α × State σ}
    (results : (diagonal reversible).Results (fun _ => Eq) start start result
      result') :
    result = result' := by
  obtain ⟨value?, finish⟩ := result
  obtain ⟨value'?, finish'⟩ := result'
  obtain ⟨⟨rest, steps⟩, values, -, -⟩ := results
  have states : finish = finish' := by
    cases finish
    cases finish'
    exact State.mk.injEq .. ▸ ⟨rest, steps⟩
  dsimp only at values
  cases values with
  | none => rw [states]
  | some same => rw [states, same]

/-- A rule is coupled with every rule that has the same results on short
texts, when its results are growing. -/
theorem rules_diagonal
    {base : σ}
    {bound : Nat}
    {rule rule' : Rule σ α}
    (grows : rule.Grows Extends)
    (same : ∀ start, start.rest.length < bound → rule.run start = rule'.run start) :
    (diagonal reversible).Rules base bound (fun _ => Eq) rule rule' := by
  rintro start start' ⟨rest, steps⟩ - short
  have states : start = start' := by
    cases start
    cases start'
    exact State.mk.injEq .. ▸ ⟨rest, steps⟩
  subst states
  rw [← same start short]
  refine ⟨⟨rfl, rfl⟩, ?_, grows start, grows start⟩
  rcases (rule.run start).1 with _ | value
  · exact .none
  · exact .some rfl

end

end Coupling

/-- Proper entries only grow what is in the record. -/
theorem Satisfy.grows
    {scope : Scope σ}
    {Extends : σ → σ → Prop}
    {entries : Entries σ}
    (reversible : scope.Reversible Extends)
    (proper : Satisfy entries (Proper Extends))
    (entry : Entry) :
    (entries entry).Grows Extends := by
  cases entry with
  | sum => exact Rule.IsAtomic.grows reversible (proper .sum)
  | factor => exact Rule.IsAtomic.grows reversible (proper .factor)
  | moreTerms left => exact proper (.moreTerms left)
  | moreFactors left => exact proper (.moreFactors left)

/-- Two rules give the same results on texts shorter than a bound. -/
def Rule.AgreesBelow (bound : Nat) (rule rule' : Rule σ α) : Prop :=
  ∀ start, start.rest.length < bound → rule.run start = rule'.run start

/-- All entries give the same results on texts shorter than a bound. -/
def AgreeBelow (bound : Nat) (entries entries' : Entries σ) : Prop :=
  ∀ entry, (entries entry).AgreesBelow bound (entries' entry)

section

variable
  {scope : Scope σ}
  {Extends : σ → σ → Prop}
  {bound : Nat}
  {rule rule' : Rule σ Expr}
  {entries entries' : Entries σ}

theorem Rule.AgreesBelow.mono
    {smaller : Nat}
    (agrees : rule.AgreesBelow bound rule')
    (le : smaller ≤ bound) :
    rule.AgreesBelow smaller rule' :=
  fun start short => agrees start (Nat.lt_of_lt_of_le short le)

/-- Guarded entries are the entries where less text remains. -/
theorem agreeBelow_guarded (start : State σ) (entries : Entries σ) :
    AgreeBelow start.rest.length (guarded start entries) entries := by
  intro next state shorter
  rw [run_guarded, if_pos shorter]

variable (reversible : scope.Reversible Extends)

/-- Rules that are coupled on the diagonal agree. -/
theorem agreesBelow_of_rules
    (rules : ∀ {base}, (Coupling.diagonal reversible).Rules base bound
      (fun _ => Eq) rule rule') :
    rule.AgreesBelow bound rule' :=
  fun start short => Coupling.eq_of_results
    (rules start start ⟨rfl, rfl⟩ (reversible.refl start.steps) short)

/-- Entries that agree are coupled on the diagonal. -/
theorem AgreeBelow.coupledEntries
    (proper : Satisfy entries (Proper Extends))
    (agree : AgreeBelow bound entries entries') :
    (Coupling.diagonal reversible).CoupledEntries bound entries entries' := by
  have same {base : σ} (entry : Entry) :
      (Coupling.diagonal reversible).Rules base bound (fun _ => Eq)
        (entries entry) (entries' entry) :=
    Coupling.rules_diagonal (proper.grows reversible entry) (agree entry)
  exact
    { sum := same .sum
      factor := same .factor
      moreTerms := by
        rintro base left _ rfl
        exact same (.moreTerms left)
      moreFactors := by
        rintro base left _ rfl
        exact same (.moreFactors left) }

include reversible

/-- A factor enters the grammar again behind a token only. -/
theorem AgreeBelow.factor
    (proper : Satisfy entries (Proper Extends))
    (agree : AgreeBelow bound entries entries') :
    (factor scope entries).AgreesBelow (bound + 1) (factor scope entries') :=
  agreesBelow_of_rules reversible
    (Coupling.rules_factor (agree.coupledEntries reversible proper))

/-- Rules over factors that agree agree where their entries agree on shorter
texts. -/
theorem AgreeBelow.rulesOver
    {factorRule factorRule' : Entries σ → Rule σ Expr}
    (proper : Satisfy entries (Proper Extends))
    (atomic : (factorRule entries).IsAtomic Extends)
    (factors : (factorRule entries).AgreesBelow (bound + 1) (factorRule' entries'))
    (agree : AgreeBelow bound entries entries') :
    AgreeBelow (bound + 1)
      (rulesOver scope factorRule entries)
      (rulesOver scope factorRule' entries') := by
  have coupled := Coupling.coupledEntries_rulesOver factorRule factorRule'
    (Coupling.rules_diagonal (atomic.grows reversible) factors) atomic proper
    (agree.coupledEntries reversible proper)
  intro entry
  cases entry with
  | sum => exact agreesBelow_of_rules reversible coupled.sum
  | factor => exact agreesBelow_of_rules reversible coupled.factor
  | moreTerms left =>
      exact agreesBelow_of_rules reversible (coupled.moreTerms _ left left rfl)
  | moreFactors left =>
      exact agreesBelow_of_rules reversible (coupled.moreFactors _ left left rfl)

/-- The tied rules are the rules with the tied rules as their entries. -/
theorem calculations_eq :
    calculations scope =
      rulesOver scope (factor scope) (calculations scope) := by
  funext entry
  apply Rule.ext
  intro start
  have proper := proper_guarded reversible start
  have agree := agreeBelow_guarded start (calculations scope)
  have rules := AgreeBelow.rulesOver reversible proper
    (isAtomic_factor reversible proper) (agree.factor reversible proper) agree
  calc
    (calculations scope entry).run start = _ :=
      run_close_guarded (rulesOver scope (factor scope)) entry start
    _ = _ := rules entry start (Nat.lt_succ_self _)

end

namespace Coupling

open Correspondence

variable
  {left : Scope σ}
  {right : Scope τ}
  (coupling : Coupling left right)

/-- The calculations of coupled scopes are coupled on all texts. -/
theorem coupledEntries_calculations (bound : Nat) :
    coupling.CoupledEntries bound (calculations left) (calculations right) := by
  induction bound with
  | zero =>
      exact
        { sum := fun _ _ _ _ short => absurd short (Nat.not_lt_zero _)
          factor := fun _ _ _ _ short => absurd short (Nat.not_lt_zero _)
          moreTerms := fun _ _ _ _ _ _ _ _ short =>
            absurd short (Nat.not_lt_zero _)
          moreFactors := fun _ _ _ _ _ _ _ _ short =>
            absurd short (Nat.not_lt_zero _) }
  | succ bound boundHypothesis =>
      have proper := proper_calculations coupling.leftReversible
      rw [calculations_eq coupling.leftReversible,
        calculations_eq coupling.rightReversible]
      exact coupledEntries_rulesOver _ _ (rules_factor boundHypothesis)
        (isAtomic_factor coupling.leftReversible proper) proper boundHypothesis

section

variable
  {coupling}
  {base : σ}
  {bound : Nat}
  {entries : Entries σ}
  {entries' : Entries τ}
  (coupled : coupling.CoupledEntries bound entries entries')
include coupled

theorem rules_completeSum :
    coupling.Rules base bound coupling.Tree
      (completeSum left entries) (completeSum right entries') := by
  refine Rules.attempt coupling.toReversible
    (rules_bind coupling.toReversible coupled.sum ?_)
  intro _ _ value value' _ values
  refine rules_bind coupling.toReversible rules_endOfText ?_
  intro _ grown _ _ _ _
  exact rules_tree (coupling.later grown values)

theorem rules_plainAssignment (target : String) :
    coupling.Rules base bound coupling.Tree
      (plainAssignment left entries target)
      (plainAssignment right entries' target) := by
  refine Rules.attempt coupling.toReversible (rules_bind coupling.toReversible
    (rules_character coupling.toReversible coupling.toReadable '=') ?_)
  intro _ _ _ _ _ _
  refine rules_bind coupling.toReversible (rules_completeSum coupled) ?_
  intro _ _ value value' _ values
  exact rules_tree (coupling.assignment target values)

/-- Both assign related values with the same operator. -/
theorem rules_operatorAssignment (target : String) (operator : Operator) :
    coupling.Rules base bound coupling.Tree
      (operatorAssignment left entries target operator)
      (operatorAssignment right entries' target operator) := by
  have symbol : coupling.Rules base bound (fun _ => Eq)
      (token (Token.literal operator.compoundSymbol))
      (token (Token.literal operator.compoundSymbol)) :=
    rules_token coupling.toReversible
      (Token.consumes_literal operator.compoundSymbol)
      (Token.consumes_literal operator.compoundSymbol)
      (coupling.read (.compound operator))
  refine Rules.attempt coupling.toReversible
    (rules_bind coupling.toReversible symbol ?_)
  intro _ _ _ _ _ _
  refine rules_bind coupling.toReversible (rules_completeSum coupled) ?_
  intro record _ value value' _ values
  exact rules_tree (coupling.assignment target
    (coupling.binary operator (coupling.var record target) values))

theorem rules_assignment :
    coupling.Rules base bound coupling.Tree
      (Grammar.assignment left entries) (Grammar.assignment right entries') := by
  refine Rules.attempt coupling.toReversible (rules_bind coupling.toReversible
    (rules_identifier coupling.toReversible coupling.toReadable) ?_)
  rintro _ _ target _ _ rfl
  exact rules_orElse coupling.toReversible (rules_plainAssignment coupled target)
    (coupling.compound (rules_operatorAssignment coupled target))

/-- Both find related statements. -/
theorem rules_statement :
    coupling.Rules base bound coupling.Tree
      (statement left entries) (statement right entries') :=
  rules_orElse coupling.toReversible (rules_assignment coupled)
    (rules_completeSum coupled)

end

/-- Coupled scopes read corresponding statements alike. -/
theorem results_statement
    {start : State σ}
    {start' : State τ}
    (states : coupling.States start start') :
    coupling.Results coupling.Tree start start'
      ((statement left (calculations left)).run start)
      ((statement right (calculations right)).run start') := by
  have coupled := coupling.coupledEntries_calculations (start.rest.length + 1)
  exact rules_statement coupled start start' states
    (coupling.leftReversible.refl start.steps) (Nat.lt_succ_self _)

end Coupling

end Grammar

namespace Statement

variable
  {left right : Environment}
  (coupling : Grammar.Coupling (.staging left) (.staging right))
  {text text' : String}

/-- Corresponding texts are both no statements, or statements with corresponding
steps and trees. -/
theorem parse?_rel_of_coupling
    (texts : coupling.Text text.toList text'.toList)
    (nothingStaged : coupling.Record [] []) :
    Option.Rel
      (fun statement statement' =>
        coupling.Record statement.steps statement'.steps ∧
          coupling.Tree statement.steps statement.root statement'.root)
      (parse? text left) (parse? text' right) := by
  let start : Grammar.State (List StagedStep) := ⟨text.toList, []⟩
  let start' : Grammar.State (List StagedStep) := ⟨text'.toList, []⟩
  have states : coupling.States start start' := ⟨texts, nothingStaged⟩
  obtain ⟨⟨-, steps⟩, roots, -, -⟩ := coupling.results_statement states
  simp only [parse?]
  generalize (Grammar.statement _ (Grammar.calculations
    (Scope.staging left))).run start = result at steps roots ⊢
  generalize (Grammar.statement _ (Grammar.calculations
    (Scope.staging right))).run start' = result' at steps roots ⊢
  obtain ⟨root?, finish⟩ := result
  obtain ⟨root'?, finish'⟩ := result'
  dsimp only at steps roots
  cases roots with
  | none => exact .none
  | some trees => exact .some ⟨steps, trees⟩

/-- Corresponding texts are the same statement, or both are none, when only
equal trees and equal staged steps correspond. -/
theorem parse?_eq_of_coupling
    (sameSteps : ∀ steps steps', coupling.Record steps steps' → steps = steps')
    (sameTrees : ∀ {steps} tree tree',
      coupling.Tree steps tree tree' → tree = tree')
    (texts : coupling.Text text.toList text'.toList)
    (nothingStaged : coupling.Record [] []) :
    parse? text left = parse? text' right := by
  have related := parse?_rel_of_coupling coupling texts nothingStaged
  generalize parse? text left = read at related ⊢
  generalize parse? text' right = read' at related ⊢
  cases related with
  | none => rfl
  | @some statement statement' both =>
      obtain ⟨root, steps⟩ := statement
      obtain ⟨root', steps'⟩ := statement'
      rw [sameTrees root root' both.2, sameSteps steps steps' both.1]

end Statement

end LineCalculator
