import LineCalculator.Expr
import LineCalculator.Proofs.Grammar.TreeShape

/-!
# Names that evaluation binds

Steps on bound names bind nothing new, and neither does a calculation whose
steps are on bound names. So evaluating a statement binds at most the target at
its root, behind all names that were bound before.
-/

namespace LineCalculator

namespace Environment

variable {environment : Environment} {name : String}

/-- Recording a bound name leaves the names as they are. -/
theorem names_record_of_mem
    (bound : name ∈ environment.names)
    (value : Float) :
    (environment.record name value).names = environment.names := by
  rw [names_record, if_pos bound]

theorem names_applyStep_of_mem
    (bound : name ∈ environment.names)
    (step : Step) :
    (environment.applyStep name step).names = environment.names :=
  names_record_of_mem bound _

/-- Steps on bound names keep the names. -/
theorem names_applySteps_of_mem
    {steps : List StagedStep}
    (bound : ∀ staged ∈ steps, staged.name ∈ environment.names) :
    (environment.applySteps steps).names = environment.names := by
  induction steps generalizing environment with
  | nil => rfl
  | cons staged steps stepsHypothesis =>
      obtain ⟨here, later⟩ := List.forall_mem_cons.mp bound
      have same := names_applyStep_of_mem here staged.step
      calc
        ((environment.applyStep staged.name staged.step).applySteps
            steps).names =
            (environment.applyStep staged.name staged.step).names := by
          apply stepsHypothesis
          rwa [same]
        _ = environment.names := same

/-- Steps keep the names distinct. -/
theorem Distinct.applySteps
    (distinct : environment.Distinct)
    (steps : List StagedStep) :
    (environment.applySteps steps).Distinct := by
  induction steps generalizing environment with
  | nil => exact distinct
  | cons staged steps stepsHypothesis =>
      exact stepsHypothesis (distinct.record staged.name _)

end Environment

namespace Expr

/-- The name that a tree assigns to at its root. -/
def target? : Expr → Option String
  | .assignment target _ => some target
  | _ => none

variable {tree : Expr} {environment : Environment}

/-- Evaluation keeps names distinct. -/
theorem distinct_eval
    (tree : Expr)
    (distinct : environment.Distinct) :
    (tree.eval environment).2.Distinct := by
  induction tree generalizing environment with
  | literal value => exact distinct
  | var name => exact distinct
  | postStep name step => exact distinct.record name _
  | binary operator left right leftHypothesis rightHypothesis =>
      exact rightHypothesis (leftHypothesis distinct)
  | assignment target value valueHypothesis =>
      exact (valueHypothesis distinct).record target _
  | call function argument argumentHypothesis =>
      exact argumentHypothesis distinct

/-- A calculation binds no name. -/
theorem IsCalculation.names_eval
    (shape : tree.IsCalculation environment.names) :
    (tree.eval environment).2.names = environment.names := by
  generalize same : environment.names = names at shape
  induction shape generalizing environment with
  | literal value => exact same
  | var isIdentifier => exact same
  | postStep bound step =>
      rw [eval_postStep, Environment.names_applyStep_of_mem (same ▸ bound), same]
  | binary operator _ _ leftHypothesis rightHypothesis =>
      exact rightHypothesis (leftHypothesis same)
  | call function _ argumentHypothesis => exact argumentHypothesis same

/-- A statement binds its target at most. -/
theorem IsStatement.exists_names_eval
    (shape : tree.IsStatement environment.names) :
    ∃ added, List.Sublist added tree.target?.toList ∧
      (tree.eval environment).2.names = environment.names ++ added := by
  cases shape with
  | calculation valueShape =>
      exact ⟨[], List.nil_sublist _, by
        rw [valueShape.names_eval, List.append_nil]⟩
  | @assignment target value isIdentifier valueShape =>
      rw [eval_assignment, Environment.names_record, valueShape.names_eval]
      split
      · exact ⟨[], List.nil_sublist _, (List.append_nil _).symm⟩
      · exact ⟨[target], List.Sublist.refl _, rfl⟩

/-- The target at the root of a statement is an identifier. -/
theorem IsStatement.isIdentifier_target
    {names : List String}
    {target : String}
    (shape : tree.IsStatement names)
    (isTarget : target ∈ tree.target?) :
    Token.IsIdentifier target.toList := by
  cases shape with
  | calculation valueShape => cases valueShape <;> simp [target?] at isTarget
  | assignment isIdentifier _ =>
      simp only [target?, Option.mem_some_iff] at isTarget
      exact isTarget ▸ isIdentifier

end Expr

end LineCalculator
