import LineCalculator.Expr
import LineCalculator.Grammar.Rule

/-!
# Names that a tree mentions

Evaluating a tree looks up and records only names that it mentions. So two
environments that agree on these names give the tree the same value and agree on
them afterwards, and all other bindings stay as they are.
-/

namespace LineCalculator

namespace Environment

/-- Both environments bind each of the names to the same value or neither binds
it. -/
def AgreeOn (names : List String) (left right : Environment) : Prop :=
  ∀ name ∈ names, left.get? name = right.get? name

/-- The bindings of other names. -/
def others (names : List String) (environment : Environment) : List Binding :=
  environment.bindings.filter fun binding => binding.name ∉ names

variable
  {environment left right : Environment}
  {names : List String}
  {name : String}

/-- A name has a value exactly when it is bound. -/
theorem isSome_get?_iff :
    (environment.get? name).isSome ↔ name ∈ environment.names := by
  simp [get?, Environment.names, List.find?_isSome]

namespace AgreeOn

theorem symm (agree : AgreeOn names left right) : AgreeOn names right left :=
  fun name member => (agree name member).symm

theorem mem_names_iff
    (agree : AgreeOn names left right)
    (member : name ∈ names) :
    name ∈ left.names ↔ name ∈ right.names := by
  rw [← isSome_get?_iff, ← isSome_get?_iff, agree name member]

theorem lookup_eq
    (agree : AgreeOn names left right)
    (member : name ∈ names) :
    left.lookup name = right.lookup name := by
  rw [lookup, lookup, agree name member]

/-- Where environments agree, names have the same values after staged steps. -/
theorem valueAfter_eq
    (agree : AgreeOn names left right)
    (member : name ∈ names)
    (steps : List StagedStep) :
    left.valueAfter steps name = right.valueAfter steps name := by
  rw [valueAfter, valueAfter, agree.lookup_eq member]

/-- A recording keeps the agreement, whether or not the name belongs to it. -/
theorem record
    (agree : AgreeOn names left right)
    (target : String)
    (value : Float) :
    AgreeOn names (left.record target value) (right.record target value) := by
  intro name member
  rw [get?_record, get?_record, agree name member]

/-- A step on a name of the agreement keeps it. -/
theorem applyStep
    (agree : AgreeOn names left right)
    (member : name ∈ names)
    (step : Step) :
    AgreeOn names (left.applyStep name step) (right.applyStep name step) := by
  rw [Environment.applyStep, Environment.applyStep, agree.lookup_eq member]
  exact agree.record name _

/-- Steps on names of the agreement keep it. -/
theorem applySteps
    (agree : AgreeOn names left right)
    {steps : List StagedStep}
    (mentioned : ∀ staged ∈ steps, staged.name ∈ names) :
    AgreeOn names (left.applySteps steps) (right.applySteps steps) := by
  induction steps generalizing left right with
  | nil => exact agree
  | cons staged steps stepsHypothesis =>
      obtain ⟨here, later⟩ := List.forall_mem_cons.mp mentioned
      exact stepsHypothesis (agree.applyStep here staged.step) later

end AgreeOn

/-- Recording one of the names leaves the bindings of others as they are. -/
theorem others_record
    (environment : Environment)
    (member : name ∈ names)
    (value : Float) :
    (environment.record name value).others names = environment.others names := by
  obtain ⟨bindings⟩ := environment
  simp only [record, others]
  induction bindings with
  | nil => simp [recordBinding, member]
  | cons binding rest restHypothesis =>
      by_cases found : binding.name = name
      · simp [recordBinding, found, member]
      · simp only [recordBinding, if_neg found, List.filter_cons, restHypothesis]

/-- Steps on some names leave the other names alone. -/
theorem others_applySteps
    (environment : Environment)
    {steps : List StagedStep}
    (mentioned : ∀ staged ∈ steps, staged.name ∈ names) :
    (environment.applySteps steps).others names = environment.others names := by
  induction steps generalizing environment with
  | nil => rfl
  | cons staged steps stepsHypothesis =>
      obtain ⟨here, later⟩ := List.forall_mem_cons.mp mentioned
      calc
        ((environment.applyStep staged.name staged.step).applySteps
            steps).others names = _ :=
          stepsHypothesis (environment.applyStep staged.name staged.step) later
        _ = environment.others names := environment.others_record here _

end Environment

namespace Expr

/-- A tree reads or changes only variables among the given names. -/
def MentionsOnly (names : List String) : Expr → Prop
  | .literal _ => True
  | .var name => name ∈ names
  | .postStep name _ => name ∈ names
  | .binary _ left right => left.MentionsOnly names ∧ right.MentionsOnly names
  | .assignment target value => target ∈ names ∧ value.MentionsOnly names
  | .call _ argument => argument.MentionsOnly names

/-- The names that a tree reads or changes, in the order of its text. -/
def mentioned : Expr → List String
  | .literal _ => []
  | .var name => [name]
  | .postStep name _ => [name]
  | .binary _ left right => left.mentioned ++ right.mentioned
  | .assignment target value => target :: value.mentioned
  | .call _ argument => argument.mentioned

variable
  {tree : Expr}
  {names names' : List String}
  {left right : Environment}

/-- A tree that mentions only some names mentions only these and more. -/
theorem MentionsOnly.mono
    (mentions : tree.MentionsOnly names)
    (subset : names ⊆ names') :
    tree.MentionsOnly names' := by
  induction tree with
  | literal value => trivial
  | var name => exact subset mentions
  | postStep name step => exact subset mentions
  | binary operator left right leftHypothesis rightHypothesis =>
      exact ⟨leftHypothesis mentions.1, rightHypothesis mentions.2⟩
  | assignment target value valueHypothesis =>
      exact ⟨subset mentions.1, valueHypothesis mentions.2⟩
  | call function argument argumentHypothesis =>
      exact argumentHypothesis mentions

theorem mentionsOnly_mentioned (tree : Expr) :
    tree.MentionsOnly tree.mentioned := by
  induction tree with
  | literal value => trivial
  | var name => exact List.mem_singleton_self name
  | postStep name step => exact List.mem_singleton_self name
  | binary operator left right leftHypothesis rightHypothesis =>
      exact ⟨leftHypothesis.mono (List.subset_append_left _ _),
        rightHypothesis.mono (List.subset_append_right _ _)⟩
  | assignment target value valueHypothesis =>
      exact ⟨List.mem_cons_self,
        valueHypothesis.mono (List.subset_cons_self _ _)⟩
  | call function argument argumentHypothesis => exact argumentHypothesis

/-- A tree has the same value in environments that agree on the names that it
mentions, and they agree on them after its evaluation. -/
theorem MentionsOnly.eval_agree
    (mentions : tree.MentionsOnly names)
    (agree : Environment.AgreeOn names left right) :
    (tree.eval left).1 = (tree.eval right).1 ∧
      Environment.AgreeOn names (tree.eval left).2 (tree.eval right).2 := by
  induction tree generalizing left right with
  | literal value => exact ⟨rfl, agree⟩
  | var name => exact ⟨agree.lookup_eq mentions, agree⟩
  | postStep name step =>
      exact ⟨agree.lookup_eq mentions, agree.applyStep mentions step⟩
  | binary operator first second firstHypothesis secondHypothesis =>
      obtain ⟨firstValue, between⟩ := firstHypothesis mentions.1 agree
      obtain ⟨secondValue, after⟩ := secondHypothesis mentions.2 between
      simp only [eval_binary]
      exact ⟨by rw [firstValue, secondValue], after⟩
  | assignment target value valueHypothesis =>
      obtain ⟨same, after⟩ := valueHypothesis mentions.2 agree
      simp only [eval_assignment]
      exact ⟨same, same ▸ after.record target _⟩
  | call function argument argumentHypothesis =>
      obtain ⟨same, after⟩ := argumentHypothesis mentions agree
      simp only [eval_call]
      exact ⟨by rw [same], after⟩

/-- Evaluation leaves the bindings of names that a tree does not mention as they
are. -/
theorem MentionsOnly.others_eval
    (mentions : tree.MentionsOnly names)
    (environment : Environment) :
    (tree.eval environment).2.others names = environment.others names := by
  induction tree generalizing environment with
  | literal value => rfl
  | var name => rfl
  | postStep name step => exact environment.others_record mentions _
  | binary operator first second firstHypothesis secondHypothesis =>
      rw [eval_binary, secondHypothesis mentions.2, firstHypothesis mentions.1]
  | assignment target value valueHypothesis =>
      rw [eval_assignment, Environment.others_record _ mentions.1,
        valueHypothesis mentions.2]
  | call function argument argumentHypothesis =>
      rw [eval_call, argumentHypothesis mentions]

end Expr

end LineCalculator
