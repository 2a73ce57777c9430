import LineCalculator.Proofs.Session.Evaluation
import LineCalculator.Session.Log

/-!
# Batches of statements

Statements can be submitted and evaluated in batches of any sizes. Whatever an
evaluation has not reported still waits, in order, so the outcomes reported so
far and those of the statements that wait are together the outcomes of all
statements that were submitted. A statement without a value leaves the session
as it is, and may as well not have been submitted.
-/

namespace LineCalculator

namespace Session

/-- The outcomes that an answer reports. -/
def Answer.outcomes : Answer → List Outcome
  | .report entries => entries
  | .outcome entry => [entry]
  | .done => []
  | .tree _ => []
  | .value _ => []

/-- An action that submits a statement or evaluates those that wait. -/
def Action.Queues : Action → Prop
  | .submit _ => True
  | .evaluateAll => True
  | _ => False

/-- The statement that an action submits. -/
def Action.submitted? : Action → Option String
  | .submit text => some text
  | _ => none

/-- The statements that actions submit, in order. -/
def submissions (actions : List Action) : List String :=
  actions.filterMap Action.submitted?

/-- The actions that submit statements and then evaluate them. -/
def oneBatch (texts : List String) : List Action :=
  texts.map .submit ++ [.evaluateAll]

/-- The statements whose outcomes are values. -/
def withValue (texts : List String) (report : List Outcome) : List String :=
  ((texts.zip report).filter fun (_, outcome) => outcome.isOk).map Prod.fst

@[simp] theorem submissions_append (first second : List Action) :
    submissions (first ++ second) = submissions first ++ submissions second :=
  List.filterMap_append

@[simp] theorem submissions_map_submit (texts : List String) :
    submissions (texts.map .submit) = texts := by
  induction texts with
  | nil => rfl
  | cons text texts textsHypothesis =>
      exact congrArg (text :: ·) textsHypothesis

/-- Statements that are submitted are evaluated behind those that waited
before. -/
theorem evaluateAll_submit (session : Session) (texts : List String) :
    (texts.foldl submit session).evaluateAll =
      { session with backlog := [] }.evaluateEach (session.backlog ++ texts) := by
  rw [foldl_submit]
  rfl

/-- Statements without a value can be left out. -/
theorem evaluateEach_withValue (session : Session) (texts : List String) :
    session.evaluateEach (withValue texts (session.evaluateEach texts).1) =
      ((session.evaluateEach texts).1.filter Except.isOk,
        (session.evaluateEach texts).2) := by
  induction texts generalizing session with
  | nil => rfl
  | cons text texts textsHypothesis =>
      rcases parsed : Statement.parse? text session.environment with
        _ | statement
      · have unparsable := evaluate_of_none parsed
        have later := textsHypothesis session
        simp only [evaluateEach, unparsable]
        exact later
      · have value := evaluate_of_some parsed
        have later := textsHypothesis (session.evaluate text).2
        have isOk : (session.evaluate text).1.isOk = true := by
          rw [value]
          rfl
        have kept : withValue (text :: texts)
            (session.evaluateEach (text :: texts)).1 =
          text :: withValue texts
            ((session.evaluate text).2.evaluateEach texts).1 := by
          simp [withValue, evaluateEach, isOk]
        rw [kept]
        simp only [evaluateEach, later, List.filter_cons, isOk, if_true]

namespace Log

/-- The outcomes that are reported while one thing is done after another. -/
def outcomes (log : Log) : List Action → List Outcome
  | [] => []
  | action :: actions =>
      (log.act action).1.outcomes ++ (log.act action).2.outcomes actions

theorem outcomes_append (log : Log) (first second : List Action) :
    log.outcomes (first ++ second) =
      log.outcomes first ++ (log.actAll first).outcomes second := by
  induction first generalizing log with
  | nil => rfl
  | cons action first firstHypothesis =>
      simp only [List.cons_append, outcomes, firstHypothesis, List.append_assoc]
      rfl

theorem actAll_append (log : Log) (first second : List Action) :
    log.actAll (first ++ second) = (log.actAll first).actAll second :=
  List.foldl_append

/-- Evaluating statements by themselves is evaluating them one after another. -/
theorem outcomes_map_evaluate (log : Log) (texts : List String) :
    log.outcomes (texts.map .evaluate) = (log.session.evaluateEach texts).1 := by
  induction texts generalizing log with
  | nil => rfl
  | cons text texts textsHypothesis =>
      have later := textsHypothesis (log.act (.evaluate text)).2
      simp only [List.map_cons, outcomes, later]
      rfl

/-- Evaluating texts one by one leaves the session that their evaluation
leaves. -/
theorem session_actAll_map_evaluate (log : Log) (texts : List String) :
    (log.actAll (texts.map .evaluate)).session =
      (log.session.evaluateEach texts).2 := by
  induction texts generalizing log with
  | nil => rfl
  | cons text texts textsHypothesis =>
      exact textsHypothesis (log.act (.evaluate text)).2

/-- An action on the queue keeps the account: its outcomes and those of the
statements that wait behind it are the outcomes of the statements that waited
before, of the one that it submits and of those submitted later. -/
theorem account_act
    (log : Log)
    {action : Action}
    (queues : action.Queues)
    (later : List String) :
    reportBehind (log.act action).1.outcomes
        (later.foldl submit (log.act action).2.session).evaluateAll =
      ((action.submitted?.toList ++ later).foldl submit
        log.session).evaluateAll := by
  cases action with
  | submit text => rfl
  | evaluateAll =>
      have nothingWaits : log.session.evaluateAll.2.backlog = [] :=
        backlog_evaluateEach { log.session with backlog := [] } _
      have emptied : { log.session.evaluateAll.2 with backlog := [] } =
          log.session.evaluateAll.2 := by
        rw [← nothingWaits]
      calc
        _ = reportBehind log.session.evaluateAll.1
              (log.session.evaluateAll.2.evaluateEach later) := by
          simp only [act, Answer.outcomes, evaluateAll_submit, nothingWaits,
            List.nil_append, emptied]
        _ = { log.session with backlog := [] }.evaluateEach
              (log.session.backlog ++ later) := by
          rw [evaluateEach_append]
          rfl
        _ = _ := (evaluateAll_submit log.session later).symm
  | _ => exact queues.elim

/-- The outcomes reported and those of the statements that still wait are
together the outcomes of all statements that were submitted. -/
theorem account_actAll
    (log : Log)
    {actions : List Action}
    (queueing : ∀ action ∈ actions, action.Queues) :
    reportBehind (log.outcomes actions)
        (log.actAll actions).session.evaluateAll =
      ((submissions actions).foldl submit log.session).evaluateAll := by
  induction actions generalizing log with
  | nil => rfl
  | cons action actions actionsHypothesis =>
      obtain ⟨queues, laterQueueing⟩ := List.forall_mem_cons.mp queueing
      have later := actionsHypothesis (log.act action).2 laterQueueing
      calc
        _ = reportBehind (log.act action).1.outcomes
              (reportBehind ((log.act action).2.outcomes actions)
                ((log.act action).2.actAll actions).session.evaluateAll) :=
          reportBehind_append _ _ _
        _ = ((action.submitted?.toList ++ submissions actions).foldl submit
              log.session).evaluateAll := by
          rw [later, log.account_act queues]
        _ = _ := by
          cases action <;> rfl

/-- A run on the queue that ends with an evaluation reports and leaves what
evaluating the submitted statements one after another does. -/
theorem outcomes_of_queueing
    {log : Log}
    (nothingWaits : log.session.backlog = [])
    {actions : List Action}
    (queueing : ∀ action ∈ actions, action.Queues) :
    log.outcomes (actions ++ [.evaluateAll]) =
        (log.session.evaluateEach (submissions actions)).1 ∧
      (log.actAll (actions ++ [.evaluateAll])).session =
        (log.session.evaluateEach (submissions actions)).2 := by
  have emptied : { log.session with backlog := [] } = log.session := by
    rw [← nothingWaits]
  have account := log.account_actAll queueing
  rw [evaluateAll_submit, nothingWaits, emptied, List.nil_append] at account
  rw [← account, outcomes_append, actAll_append]
  exact ⟨congrArg (_ ++ ·) (List.append_nil _), rfl⟩

/-- One batch does nothing but queue texts and evaluate them all. -/
theorem queues_oneBatch (texts : List String) :
    ∀ action ∈ texts.map Action.submit, action.Queues := by
  intro action member
  obtain ⟨text, -, rfl⟩ := List.mem_map.mp member
  trivial

/-- However statements are submitted and evaluated in turn, as long as the last
of them is evaluated: the reports together have one outcome for each statement,
in order, and they and the session at the end are the same as when all
statements are submitted before they are evaluated, and as when each of them is
evaluated by itself. No statement waits at the end. The outcome of a statement
is an error, which quotes it, exactly when it cannot be read with the variables
that the statements before it leave. Leaving out the statements without a value
changes no other outcome, and not the session at the end. -/
theorem batches_are_unobservable
    (log : Log)
    (nothingWaits : log.session.backlog = [])
    (actions : List Action)
    (queueing : ∀ action ∈ actions, action.Queues) :
    let texts := submissions actions
    let report := log.outcomes (actions ++ [.evaluateAll])
    let session := (log.actAll (actions ++ [.evaluateAll])).session
    report.length = texts.length ∧
    (log.outcomes (oneBatch texts) = report ∧
      (log.actAll (oneBatch texts)).session = session) ∧
    (log.outcomes (texts.map .evaluate) = report ∧
      (log.actAll (texts.map .evaluate)).session = session) ∧
    session.pending = 0 ∧
    (∀ index text outcome, texts[index]? = some text →
      report[index]? = some outcome →
      let earlier := (texts.take index).map Action.evaluate
      let before := (log.actAll earlier).session.environment
      (outcome = .error (.unparsable text) ↔
        Statement.parse? text before = none) ∧
      (outcome.isOk = true ↔ (Statement.parse? text before).isSome)) ∧
    ∀ fewer : List Action, (∀ action ∈ fewer, action.Queues) →
      submissions fewer = withValue texts report →
      log.outcomes (fewer ++ [.evaluateAll]) = report.filter Except.isOk ∧
      (log.actAll (fewer ++ [.evaluateAll])).session = session := by
  intro texts report session
  obtain ⟨reported, left⟩ := outcomes_of_queueing nothingWaits queueing
  replace reported : report = (log.session.evaluateEach texts).1 := reported
  replace left : session = (log.session.evaluateEach texts).2 := left
  refine ⟨?_, ?_, ?_, ?_, ?_, ?_⟩
  · rw [reported, length_evaluateEach]
  · have atOnce := outcomes_of_queueing nothingWaits (queues_oneBatch texts)
    rw [submissions_map_submit, ← reported, ← left] at atOnce
    exact atOnce
  · rw [outcomes_map_evaluate, session_actAll_map_evaluate, reported, left]
    exact ⟨rfl, rfl⟩
  · rw [left, pending, backlog_evaluateEach, nothingWaits]
    rfl
  · intro index text outcome isText isOutcome earlier before
    have leaves : before =
        (log.session.evaluateEach (texts.take index)).2.environment := by
      simp only [before, earlier, session_actAll_map_evaluate]
    rw [reported, getElem?_evaluateEach, isText] at isOutcome
    rw [leaves]
    obtain rfl := Option.some.inj isOutcome
    rcases parsed : Statement.parse? text
      (log.session.evaluateEach (texts.take index)).2.environment with
        _ | statement
    · simp [evaluate_of_none parsed, Except.isOk, Except.toBool]
    · simp [evaluate_of_some parsed, Except.isOk, Except.toBool]
  · intro fewer fewerQueueing kept
    obtain ⟨fewerReported, fewerLeft⟩ :=
      outcomes_of_queueing nothingWaits fewerQueueing
    rw [fewerReported, fewerLeft, kept, reported, left, evaluateEach_withValue]
    exact ⟨rfl, rfl⟩

/-- Of three statements in two batches, the second one adds to a variable that
is not bound. The other two have the same values in one batch without it. -/
theorem batches_are_unobservable_without_unreadable_statement :
    let log : Log := ⟨⟨⟨[⟨"a", 1.0⟩]⟩, []⟩, []⟩
    let actions : List Action :=
      [.submit "a+=5", .submit "b+=1", .evaluateAll, .submit "b = a--"]
    log.session.backlog = [] ∧ (∀ action ∈ actions, action.Queues) ∧
      log.outcomes (actions ++ [.evaluateAll]) =
        [.ok 6.0, .error (.unparsable "b+=1"), .ok 6.0] ∧
      log.outcomes (oneBatch ["a+=5", "b = a--"]) = [.ok 6.0, .ok 6.0] ∧
      (log.actAll (oneBatch ["a+=5", "b = a--"])).session =
        (log.actAll (actions ++ [.evaluateAll])).session := by
  intro log actions
  have queueing : ∀ action ∈ actions, action.Queues := by
    simp [actions, Action.Queues]
  have report : log.outcomes (actions ++ [.evaluateAll]) =
      [.ok 6.0, .error (.unparsable "b+=1"), .ok 6.0] := by
    decide +kernel
  obtain ⟨-, -, -, -, -, fewer⟩ :=
    batches_are_unobservable log rfl actions queueing
  have without := fewer (["a+=5", "b = a--"].map .submit)
    (queues_oneBatch _) (by rw [report]; rfl)
  rw [report] at without
  exact ⟨rfl, queueing, report, without⟩

end Log

end Session

end LineCalculator
