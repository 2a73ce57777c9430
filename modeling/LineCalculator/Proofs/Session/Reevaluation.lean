import LineCalculator.Proofs.Expr.Mentions
import LineCalculator.Proofs.Grammar.StepFreeText
import LineCalculator.Proofs.Session.Evaluation
import LineCalculator.Proofs.Session.Names

/-!
# Evaluating a statement again

Evaluating a statement may bind its target, and a name that is bound can be read
where it could not be read before. The text of a statement without steps holds
nothing that needs a bound name, however, so it is read as the same tree again.
That tree has the same value as long as it does not read what it assigns, and
then the second evaluation records what is recorded already.
-/

namespace LineCalculator

namespace Environment

/-- Of two recordings of a name the second one counts. -/
theorem record_record
    (environment : Environment)
    (name : String)
    (first second : Float) :
    (environment.record name first).record name second =
      environment.record name second := by
  obtain ⟨bindings⟩ := environment
  simp only [record]
  congr 1
  induction bindings with
  | nil => simp [recordBinding]
  | cons binding rest restHypothesis =>
      by_cases found : binding.name = name
      · simp [recordBinding, found]
      · simpa [recordBinding, found] using restHypothesis

end Environment

namespace Expr

/-- The names whose values a tree reads. -/
def reads : Expr → List String
  | .literal _ => []
  | .var name | .postStep name _ => [name]
  | .binary _ left right => left.reads ++ right.reads
  | .assignment _ value => value.reads
  | .call _ argument => argument.reads

/-- A tree without an assignment at its root, or one that assigns a value which
does not read the target, or one that assigns a variable to itself. -/
def Settles : Expr → Prop
  | .assignment target value => target ∉ value.reads ∨ value = .var target
  | _ => True

variable {tree : Expr} {names : List String}

theorem IsCalculation.mentioned_eq_reads (shape : tree.IsCalculation names) :
    tree.mentioned = tree.reads := by
  induction shape with
  | literal value => rfl
  | var isIdentifier => rfl
  | postStep bound step => rfl
  | binary operator _ _ leftHypothesis rightHypothesis =>
      rw [mentioned, reads, leftHypothesis, rightHypothesis]
  | call function _ argumentHypothesis => exact argumentHypothesis

/-- A calculation without steps leaves the environment as it is. -/
theorem IsCalculation.snd_eval_eq
    (shape : tree.IsCalculation names)
    (noStep : tree.postSteps = [])
    (environment : Environment) :
    (tree.eval environment).2 = environment := by
  induction shape with
  | literal value => rfl
  | var isIdentifier => rfl
  | postStep bound step => simp [postSteps] at noStep
  | binary operator _ _ leftHypothesis rightHypothesis =>
      obtain ⟨noLeft, noRight⟩ := List.append_eq_nil_iff.mp noStep
      rw [eval_binary, leftHypothesis noLeft, rightHypothesis noRight]
  | call function _ argumentHypothesis =>
      rw [eval_call, argumentHypothesis noStep]

/-- Recording a name that a calculation does not read leaves its value as it
is. -/
theorem IsCalculation.fst_eval_record
    (shape : tree.IsCalculation names)
    {target : String}
    (notRead : target ∉ tree.reads)
    (environment : Environment)
    (value : Float) :
    (tree.eval (environment.record target value)).1 =
      (tree.eval environment).1 := by
  have agree : Environment.AgreeOn tree.mentioned
      (environment.record target value) environment := by
    intro name mentioned
    rw [shape.mentioned_eq_reads] at mentioned
    have other : name ≠ target := fun equal => notRead (equal ▸ mentioned)
    rw [Environment.get?_record, if_neg other]
  exact (tree.mentionsOnly_mentioned.eval_agree agree).1

/-- A statement that neither assigns nor steps leaves the environment as it
is. -/
theorem IsStatement.snd_eval_eq
    (shape : tree.IsStatement names)
    (noStep : tree.postSteps = [])
    (noTarget : tree.target? = none)
    (environment : Environment) :
    (tree.eval environment).2 = environment := by
  cases shape with
  | calculation valueShape => exact valueShape.snd_eval_eq noStep environment
  | assignment _ _ => simp [target?] at noTarget

/-- The second evaluation gives the value of the first one and leaves the
environment that the first one left. -/
theorem IsStatement.eval_again
    (shape : tree.IsStatement names)
    (noStep : tree.postSteps = [])
    (settles : tree.Settles)
    (environment : Environment) :
    tree.eval (tree.eval environment).2 = tree.eval environment := by
  cases shape with
  | calculation valueShape => rw [valueShape.snd_eval_eq noStep]
  | @assignment target value _ valueShape =>
      have unchanged (environment : Environment) :
          (value.eval environment).2 = environment :=
        valueShape.snd_eval_eq noStep environment
      have same : (value.eval
          (environment.record target (value.eval environment).1)).1 =
            (value.eval environment).1 := by
        rcases settles with notRead | rfl
        · exact valueShape.fst_eval_record notRead environment _
        · rw [eval_var, Environment.lookup, Environment.get?_record, if_pos rfl]
          rfl
      simp only [eval_assignment, unchanged, same, Environment.record_record]

end Expr

namespace Statement

/-- A statement that has no steps and settles is read from a text that needs no
bound name. -/
theorem needsNoName_of_settles
    {text : String}
    {environment : Environment}
    {statement : Statement}
    (identifiers : ∀ name ∈ environment.names, Token.IsIdentifier name.toList)
    (parsed : parse? text environment = some statement)
    (noStepBefore : statement.steps = [])
    (noStepAfter : statement.root.postSteps = [])
    (settles : statement.root.Settles) :
    Grammar.NeedsNoName text.toList := by
  obtain ⟨phrase, derivesText, value⟩ :=
    Grammar.exists_derivesText_of_parse? identifiers parsed
  obtain ⟨before, after⟩ := phrase.steps_read environment []
  rw [value] at before after
  refine derivesText.needsNoName ?_ ?_
  · intro side
    cases side with
    | before => exact before.symm.trans noStepBefore
    | after => exact after.symm.trans noStepAfter
  · -- The value of an assignment with an operator reads the target.
    rintro target operator assigned rfl
    rw [← (Prod.mk.inj value).1] at settles
    simp [Expr.Settles, Expr.reads] at settles

end Statement

namespace Session

/-- A statement without steps that assigns nothing, or a value that does not
read the target, or a variable to itself, is read as the same tree after it has
been evaluated. Evaluating it again gives the same value and leaves the session
with the names, their order and the values that it has. When it assigns nothing,
even the first evaluation leaves the environment as it is. -/
theorem reevaluation_changes_nothing
    (session : Session)
    (wellNamed : session.environment.WellNamed)
    {text : String}
    {statement : Statement}
    (parsed : Statement.parse? text session.environment = some statement)
    (noStepBefore : statement.steps = [])
    (noStepAfter : statement.root.postSteps = [])
    (settles : statement.root.Settles) :
    let first := session.evaluate text
    Statement.parse? text first.2.environment = some statement ∧
    (∃ value, first.1 = .ok value) ∧
    first.2.evaluate text = first ∧
    (statement.root.target? = none →
      first.2.environment = session.environment) := by
  intro first
  have shape := Statement.isStatement_root parsed
  have uncommitted (environment : Environment) :
      statement.commit environment = environment := by
    rw [Statement.commit, noStepBefore]
    rfl
  have first_eq : first = (.ok (statement.root.eval session.environment).1,
      { session with
        environment := (statement.root.eval session.environment).2 }) := by
    simp only [first, evaluate_of_some parsed, uncommitted]
  have needsNoName := Statement.needsNoName_of_settles wellNamed.identifiers
    parsed noStepBefore noStepAfter settles
  have again : Statement.parse? text first.2.environment = some statement :=
    (Statement.parse?_eq_of_needsNoName needsNoName _ _).trans parsed
  refine ⟨again, ⟨_, congrArg Prod.fst first_eq⟩, ?_, ?_⟩
  · have same := shape.eval_again noStepAfter settles session.environment
    rw [evaluate_of_some again, uncommitted, first_eq]
    simp only [same]
  · intro noTarget
    rw [first_eq]
    exact shape.snd_eval_eq noStepAfter noTarget session.environment

/-- The first evaluation of `ab = b + abc / 2` binds `ab`, which is then a bound
name in front of `abc` too. The second one gives 5 again. -/
theorem reevaluation_changes_nothing_with_new_target :
    let text := "ab = b + abc / 2"
    let session : Session := ⟨⟨[⟨"b", 3.0⟩, ⟨"abc", 4.0⟩]⟩, []⟩
    let statement : Statement := ⟨.assignment "ab" (.binary .addition (.var "b")
      (.binary .division (.var "abc") (.literal 2.0))), []⟩
    let after : Session :=
      ⟨⟨[⟨"b", 3.0⟩, ⟨"abc", 4.0⟩, ⟨"ab", 5.0⟩]⟩, []⟩
    session.environment.WellNamed ∧
      Statement.parse? text session.environment = some statement ∧
      statement.root.postSteps = [] ∧ statement.root.Settles ∧
      session.evaluate text = (.ok 5.0, after) ∧
      after.evaluate text = (.ok 5.0, after) := by
  intro text session statement after
  have wellNamed : session.environment.WellNamed :=
    ⟨by unfold Environment.Distinct; decide, by decide⟩
  have sorted : session.environment.namesByLength = ["abc", "b"] := by
    change ["b", "abc"].mergeSort _ = _
    simp +decide [List.mergeSort]
  have parsed :
      Statement.parse? text session.environment = some statement := by
    rw [Statement.parse?_of_namesByLength sorted]
    decide +kernel
  have settles : statement.root.Settles := .inl (by decide)
  have value : (statement.root.eval session.environment) =
      (5.0, after.environment) := by
    decide +kernel
  have first_eq : session.evaluate text = (.ok 5.0, after) := by
    rw [evaluate_of_some parsed, show statement.commit session.environment =
      session.environment from rfl, value]
  have again := reevaluation_changes_nothing session wellNamed parsed rfl rfl
    settles
  rw [first_eq] at again
  exact ⟨wellNamed, parsed, rfl, settles, first_eq, again.2.2.1⟩

end Session

end LineCalculator
