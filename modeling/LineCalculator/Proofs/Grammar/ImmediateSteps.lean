import LineCalculator.Proofs.Grammar.CoupledStatements
import LineCalculator.Proofs.Grammar.StagedAttempts
import LineCalculator.Statement

/-!
# Steps at once

Another way to read a statement changes a copy of the environment at every step
before a name and puts the environment of its start back when an attempt fails.
Its environment is at every point the one that the steps staged so far lead to,
so both ways read the same trees and end with the same environment.
-/

namespace LineCalculator

namespace Environment

/-- The steps of two lists are applied one list after the other. -/
theorem applySteps_append
    (environment : Environment)
    (first second : List StagedStep) :
    environment.applySteps (first ++ second) =
      (environment.applySteps first).applySteps second :=
  List.foldl_append

/-- The value of a name after one step is the value of that name stepped, or the
value it had when the step is on another name. -/
theorem lookup_applyStep
    (environment : Environment)
    (name other : String)
    (step : Step) :
    (environment.applyStep name step).lookup other =
      if other = name then step.apply (environment.lookup other)
      else environment.lookup other := by
  simp only [applyStep, lookup, get?_record]
  split
  · next same => simp [same]
  · rfl

/-- The value that staged steps give a name is its value once they are
applied. -/
theorem valueAfter_eq_lookup_applySteps
    (environment : Environment)
    (steps : List StagedStep)
    (name : String) :
    environment.valueAfter steps name =
      (environment.applySteps steps).lookup name := by
  induction steps generalizing environment with
  | nil => rfl
  | cons staged steps stepsHypothesis =>
      have later := stepsHypothesis (environment.applyStep staged.name staged.step)
      simp only [applySteps, List.foldl_cons] at later ⊢
      rw [← later]
      simp only [valueAfter, lookup_applyStep]
      by_cases same : staged.name = name
      · simp [same]
      · have different : name ≠ staged.name := fun equal => same equal.symm
        simp [same, different]

end Environment

namespace Scope

/-- The scope that applies every step to its record, which is an environment.
An attempt that fails gets the environment of its start back. -/
def immediate (environment : Environment) : Scope Environment where
  names := environment.namesByLength
  value record name := record.lookup name
  note record name step := record.applyStep name step
  rewind start _ := start

theorem reversible_immediate (environment : Environment) :
    (immediate environment).Reversible fun _ _ => True where
  refl _ := trivial
  trans _ _ := trivial
  note _ _ _ := trivial
  rewind _ := rfl

end Scope

namespace Statement

/-- Read a statement and apply the steps before its names while reading. -/
def readImmediately
    (text : String)
    (environment : Environment) : Option Expr × Environment :=
  let scope := Scope.immediate environment
  let (root, finish) :=
    (Grammar.statement scope (Grammar.calculations scope)).run
      ⟨text.toList, environment⟩
  (root, finish.steps)

end Statement

namespace Grammar

/-- Staged steps correspond to the environment that they lead to. -/
def Correspondence.stagedAndImmediate (environment : Environment) :
    Correspondence (Scope.staging environment) (Scope.immediate environment) where
  Text := Eq
  Record steps record := record = environment.applySteps steps
  Tree _ := Eq
  LeftExtends := Appends environment.names
  RightExtends _ _ := True

theorem Correspondence.lawful_stagedAndImmediate (environment : Environment) :
    (stagedAndImmediate environment).Lawful := by
  apply lawful_of_sameText (reversible_staging environment)
    (Scope.reversible_immediate environment) rfl
  · rintro steps _ rfl name step
    exact (environment.applySteps_append steps [⟨name, step⟩]).symm
  · rintro steps _ rfl name
    exact environment.valueAfter_eq_lookup_applySteps steps name

/-- Staging steps is coupled with applying them. -/
def stagedAndImmediate (environment : Environment) :
    Coupling (Scope.staging environment) (Scope.immediate environment) where
  toCorrespondence := .stagedAndImmediate environment
  toLawful := Correspondence.lawful_stagedAndImmediate environment

end Grammar

namespace Statement

/-- Applying the steps while reading gives the tree of the statement and the
environment after its steps are committed. A text that is no statement is none
in either way, and leaves the environment as it was. -/
theorem readImmediately_eq_parse?_commit
    (text : String)
    (environment : Environment) :
    readImmediately text environment =
      match parse? text environment with
      | some statement =>
          (some statement.root, statement.commit environment)
      | none => (none, environment) := by
  let start : Grammar.State (List StagedStep) := ⟨text.toList, []⟩
  let start' : Grammar.State Environment := ⟨text.toList, environment⟩
  have reversible := Grammar.reversible_staging environment
  have states :
      (Grammar.stagedAndImmediate environment).States start start' := ⟨rfl, rfl⟩
  have results := (Grammar.stagedAndImmediate environment).results_statement states
  have atomic := Grammar.isAtomic_statement reversible
    (Grammar.proper_calculations reversible) start
  simp only [readImmediately, parse?]
  generalize (Grammar.statement _ (Grammar.calculations
    (Scope.staging environment))).run start = staged at results atomic ⊢
  generalize (Grammar.statement _ (Grammar.calculations
    (Scope.immediate environment))).run start' = immediate at results ⊢
  obtain ⟨root?, finish⟩ := staged
  obtain ⟨root'?, finish'⟩ := immediate
  obtain ⟨⟨-, record⟩, roots, -, -⟩ := results
  replace record : finish'.steps = environment.applySteps finish.steps := record
  replace roots : Option.Rel Eq root? root'? := roots
  cases roots with
  | none =>
      have unchanged : finish.steps = [] := congrArg Grammar.State.steps atomic
      rw [unchanged] at record
      simp only [record]
      rfl
  | @some root root' same => simp only [same, record, ofResult?, commit]

end Statement

end LineCalculator
