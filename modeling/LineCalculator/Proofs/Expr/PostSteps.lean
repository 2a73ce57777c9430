import LineCalculator.Proofs.Expr.BoundNames
import LineCalculator.Proofs.Grammar.ImmediateSteps

/-!
# Steps after names

Evaluating a tree takes the steps after its names from left to right, every one
of them once. A variable that the tree does not assign to is changed by its own
steps only, so its value after any number of evaluations is that of a list of
steps. The steps before names are no part of the tree: they are taken when the
statement is committed, and evaluating its tree again does not take them again.
-/

namespace LineCalculator

namespace Environment

variable {environment after : Environment} {name : String}

/-- Steps behind those that led to the value of a name carry that value on. -/
theorem valueAfter_of_lookup_eq
    {first : List StagedStep}
    (value : after.lookup name = environment.valueAfter first name)
    (second : List StagedStep) :
    after.valueAfter second name =
      environment.valueAfter (first ++ second) name := by
  simp only [valueAfter, List.filter_append, List.foldl_append, value]

/-- A recording leaves the values of other names. -/
theorem lookup_record_of_ne
    {target : String}
    (different : name ≠ target)
    (value : Float) :
    (environment.record target value).lookup name = environment.lookup name := by
  rw [lookup, get?_record, if_neg different, lookup]

end Environment

namespace Expr

/-- The steps after names in a tree, from left to right. -/
def postSteps : Expr → List StagedStep
  | .literal _ | .var _ => []
  | .postStep name step => [⟨name, step⟩]
  | .binary _ left right => left.postSteps ++ right.postSteps
  | .assignment _ value => value.postSteps
  | .call _ argument => argument.postSteps

/-- The names that a tree assigns to. -/
def targets : Expr → List String
  | .literal _ | .var _ | .postStep _ _ => []
  | .binary _ left right => left.targets ++ right.targets
  | .assignment target value => target :: value.targets
  | .call _ argument => argument.targets

/-- What the steps after names yield while a tree is evaluated, from left to
right. -/
def stepValues : Expr → Environment → List Float
  | .literal _, _ | .var _, _ => []
  | .postStep name step, environment =>
      [((postStep name step).eval environment).1]
  | .binary _ left right, environment =>
      left.stepValues environment ++ right.stepValues (left.eval environment).2
  | .assignment _ value, environment => value.stepValues environment
  | .call _ argument, environment => argument.stepValues environment

/-- The environment that is left when a tree is evaluated a number of times. -/
def evalTimes (tree : Expr) : Nat → Environment → Environment
  | 0, environment => environment
  | count + 1, environment => tree.evalTimes count (tree.eval environment).2

/-- The steps after names that a number of evaluations take. -/
def postStepsTimes (tree : Expr) (count : Nat) : List StagedStep :=
  (List.replicate count tree.postSteps).flatten

variable {tree : Expr} {environment : Environment} {name : String}

/-- Evaluation changes a variable that is not assigned to by its own steps. -/
theorem lookup_eval
    (environment : Environment)
    (notTarget : name ∉ tree.targets) :
    (tree.eval environment).2.lookup name =
      environment.valueAfter tree.postSteps name := by
  induction tree generalizing environment with
  | literal value => rfl
  | var other => rfl
  | postStep other step =>
      rw [eval_postStep, Environment.lookup_applyStep]
      by_cases same : name = other
      · simp [Environment.valueAfter, postSteps, same]
      · have different : other ≠ name := fun equal => same equal.symm
        simp [Environment.valueAfter, postSteps, same, different]
  | binary operator left right leftHypothesis rightHypothesis =>
      simp only [targets, List.mem_append, not_or] at notTarget
      have leftValue := leftHypothesis environment notTarget.1
      rw [eval_binary, rightHypothesis _ notTarget.2]
      exact Environment.valueAfter_of_lookup_eq leftValue right.postSteps
  | assignment target value valueHypothesis =>
      simp only [targets, List.mem_cons, not_or] at notTarget
      rw [eval_assignment, Environment.lookup_record_of_ne notTarget.1]
      exact valueHypothesis environment notTarget.2
  | call function argument argumentHypothesis =>
      exact argumentHypothesis environment notTarget

/-- Every step in a tree yields one value. -/
theorem length_stepValues (tree : Expr) (environment : Environment) :
    (tree.stepValues environment).length = tree.postSteps.length := by
  induction tree generalizing environment with
  | literal value => rfl
  | var other => rfl
  | postStep other step => rfl
  | binary operator left right leftHypothesis rightHypothesis =>
      simp only [stepValues, postSteps, List.length_append, leftHypothesis,
        rightHypothesis]
  | assignment target value valueHypothesis => exact valueHypothesis environment
  | call function argument argumentHypothesis =>
      exact argumentHypothesis environment

/-- A step yields the value that its variable has after the steps to the left of
it. -/
theorem getElem?_stepValues
    {index : Nat}
    {step : Step}
    (notTarget : name ∉ tree.targets)
    (isStep : tree.postSteps[index]? = some ⟨name, step⟩) :
    (tree.stepValues environment)[index]? =
      some (environment.valueAfter (tree.postSteps.take index) name) := by
  induction tree generalizing environment index with
  | literal value => simp [postSteps] at isStep
  | var other => simp [postSteps] at isStep
  | postStep other otherStep =>
      cases index with
      | zero =>
          obtain ⟨rfl, rfl⟩ : other = name ∧ otherStep = step := by
            simpa [postSteps] using isStep
          rfl
      | succ index => simp [postSteps] at isStep
  | binary operator left right leftHypothesis rightHypothesis =>
      simp only [targets, List.mem_append, not_or] at notTarget
      have length := left.length_stepValues environment
      have leftValue := lookup_eval environment notTarget.1
      simp only [postSteps, stepValues, List.getElem?_append, length,
        List.take_append] at isStep ⊢
      by_cases onLeft : index < left.postSteps.length
      · rw [if_pos onLeft] at isStep ⊢
        rw [leftHypothesis notTarget.1 isStep,
          Nat.sub_eq_zero_of_le (Nat.le_of_lt onLeft), List.take_zero,
          List.append_nil]
      · rw [if_neg onLeft] at isStep ⊢
        rw [rightHypothesis notTarget.2 isStep,
          Environment.valueAfter_of_lookup_eq leftValue,
          List.take_of_length_le (Nat.le_of_not_lt onLeft)]
  | assignment target value valueHypothesis =>
      simp only [targets, List.mem_cons, not_or] at notTarget
      exact valueHypothesis notTarget.2 isStep
  | call function argument argumentHypothesis =>
      exact argumentHypothesis notTarget isStep

/-- Every evaluation takes the steps once more. -/
theorem lookup_evalTimes
    (notTarget : name ∉ tree.targets)
    (count : Nat) :
    (tree.evalTimes count environment).lookup name =
      environment.valueAfter (tree.postStepsTimes count) name := by
  induction count generalizing environment with
  | zero => rfl
  | succ count countHypothesis =>
      have firstValue := lookup_eval environment notTarget
      calc
        _ = (tree.eval environment).2.valueAfter
              (tree.postStepsTimes count) name := countHypothesis
        _ = environment.valueAfter
              (tree.postSteps ++ tree.postStepsTimes count) name :=
          Environment.valueAfter_of_lookup_eq firstValue _
        _ = _ := by
          rw [postStepsTimes, postStepsTimes, List.replicate_succ,
            List.flatten_cons]

/-- In one more evaluation a step yields the value after all steps so far. -/
theorem getElem?_stepValues_evalTimes
    {index : Nat}
    {step : Step}
    (notTarget : name ∉ tree.targets)
    (count : Nat)
    (isStep : tree.postSteps[index]? = some ⟨name, step⟩) :
    (tree.stepValues (tree.evalTimes count environment))[index]? =
      some (environment.valueAfter
        (tree.postStepsTimes count ++ tree.postSteps.take index) name) := by
  rw [getElem?_stepValues notTarget isStep,
    Environment.valueAfter_of_lookup_eq (lookup_evalTimes notTarget count)]

/-- A calculation has no target. -/
theorem IsCalculation.targets_eq_nil
    {names : List String}
    (shape : tree.IsCalculation names) :
    tree.targets = [] := by
  induction shape with
  | literal value => rfl
  | var isIdentifier => rfl
  | postStep bound step => rfl
  | binary operator _ _ leftHypothesis rightHypothesis =>
      rw [targets, leftHypothesis, rightHypothesis, List.append_nil]
  | call function _ argumentHypothesis => exact argumentHypothesis

/-- A statement assigns at its root only. -/
theorem IsStatement.targets_eq
    {names : List String}
    (shape : tree.IsStatement names) :
    tree.targets = tree.target?.toList := by
  cases shape with
  | calculation valueShape =>
      rw [valueShape.targets_eq_nil]
      cases valueShape <;> rfl
  | assignment isIdentifier valueShape =>
      rw [targets, valueShape.targets_eq_nil]
      rfl

/-- In a statement a step yields the value after the steps to the left of it on
the target too, since the target is recorded last. -/
theorem IsStatement.getElem?_stepValues
    {names : List String}
    {index : Nat}
    {step : Step}
    (shape : tree.IsStatement names)
    (isStep : tree.postSteps[index]? = some ⟨name, step⟩) :
    (tree.stepValues environment)[index]? =
      some (environment.valueAfter (tree.postSteps.take index) name) := by
  cases shape with
  | calculation valueShape =>
      exact Expr.getElem?_stepValues (by simp [valueShape.targets_eq_nil]) isStep
  | @assignment target value isIdentifier valueShape =>
      have noTarget : name ∉ value.targets := by
        simp [valueShape.targets_eq_nil]
      change (value.stepValues environment)[index]? =
        some (environment.valueAfter (value.postSteps.take index) name)
      exact Expr.getElem?_stepValues noTarget isStep

end Expr

namespace Statement

/-- However often the tree of a statement is evaluated after the statement is
committed, in whatever environment, the value of a variable that is not its
target is the value at first, changed by the steps before the name once and then
by the steps after the name once for each evaluation, and by nothing else; and
every step after the name yields the value just before it. Within one evaluation
that is so of steps on the target too. For the steps after names the same holds
of every tree and every variable that it does not assign to. -/
theorem steps_are_taken_once
    {text : String}
    {reading : Environment}
    {statement : Statement}
    (parsed : parse? text reading = some statement)
    (environment : Environment)
    (count : Nat) :
    (∀ name, statement.root.target? ≠ some name →
      let after := statement.root.evalTimes count (statement.commit environment)
      let taken := statement.steps ++ statement.root.postStepsTimes count
      after.lookup name = environment.valueAfter taken name ∧
      ∀ (index : Nat) (step : Step),
        statement.root.postSteps[index]? = some ⟨name, step⟩ →
        (statement.root.stepValues after)[index]? =
          some (environment.valueAfter
            (taken ++ statement.root.postSteps.take index) name)) ∧
    (∀ (index : Nat) (name : String) (step : Step),
      statement.root.postSteps[index]? = some ⟨name, step⟩ →
      (statement.root.stepValues environment)[index]? =
        some (environment.valueAfter
          (statement.root.postSteps.take index) name)) ∧
    ∀ (tree : Expr) (name : String), name ∉ tree.targets →
      let after := tree.evalTimes count environment
      let taken := tree.postStepsTimes count
      after.lookup name = environment.valueAfter taken name ∧
      ∀ (index : Nat) (step : Step),
        tree.postSteps[index]? = some ⟨name, step⟩ →
        (tree.stepValues after)[index]? =
          some (environment.valueAfter
            (taken ++ tree.postSteps.take index) name) := by
  have shape := isStatement_root parsed
  refine ⟨fun name other => ?_, fun index name step isStep => ?_,
    fun tree name notTarget => ?_⟩
  · have notTarget : name ∉ statement.root.targets := by
      rw [shape.targets_eq, Option.mem_toList]
      exact other
    have committed : (statement.commit environment).lookup name =
        environment.valueAfter statement.steps name :=
      (environment.valueAfter_eq_lookup_applySteps statement.steps name).symm
    refine ⟨?_, fun index step isStep => ?_⟩
    · rw [Expr.lookup_evalTimes notTarget,
        Environment.valueAfter_of_lookup_eq committed]
    · rw [Expr.getElem?_stepValues_evalTimes notTarget count isStep,
        Environment.valueAfter_of_lookup_eq committed, List.append_assoc]
  · exact shape.getElem?_stepValues isStep
  · exact ⟨Expr.lookup_evalTimes notTarget count, fun index step =>
      Expr.getElem?_stepValues_evalTimes notTarget count⟩

/-- The statement `j = ++i + i++` is read where `i` is 3, and committed where it
is 10. After two evaluations `i` is 13, and the step after the name yields 13 in
the third one. -/
theorem steps_are_taken_once_in_another_environment :
    let root : Expr := .assignment "j"
      (.binary .addition (.literal 4.0) (.postStep "i" .increment))
    let statement : Statement := ⟨root, [⟨"i", .increment⟩]⟩
    let environment : Environment := ⟨[⟨"i", 10.0⟩]⟩
    let after := root.evalTimes 2 (statement.commit environment)
    parse? "j = ++i + i++" ⟨[⟨"i", 3.0⟩]⟩ = some statement ∧
      root.target? ≠ some "i" ∧ after.lookup "i" = 13.0 ∧
      (root.stepValues after)[0]? = some 13.0 := by
  intro root statement environment after
  have parsed : parse? "j = ++i + i++" ⟨[⟨"i", 3.0⟩]⟩ = some statement := by
    decide +kernel
  have other : root.target? ≠ some "i" := by
    decide
  obtain ⟨value, yields⟩ :=
    (steps_are_taken_once parsed environment 2).1 "i" other
  refine ⟨parsed, other, value.trans ?_, (yields 0 .increment rfl).trans ?_⟩ <;>
    decide +kernel

end Statement

end LineCalculator
