import LineCalculator.Session

/-!
# Evaluating statements

What evaluating one statement or several gives and leaves. A statement that
cannot be read is reported and leaves the session as it is; of several
statements, each is evaluated in the session that those before it leave.
-/

namespace LineCalculator

namespace Session

variable {session : Session} {text : String}

/-- A text that cannot be read is reported and changes nothing. -/
theorem evaluate_of_none
    (unparsable : Statement.parse? text session.environment = none) :
    session.evaluate text = (.error (.unparsable text), session) := by
  simp [evaluate, parse, unparsable]

/-- A text that can be read commits its staged steps and evaluates its tree. -/
theorem evaluate_of_some
    {statement : Statement}
    (parsed : Statement.parse? text session.environment = some statement) :
    session.evaluate text =
      let result := statement.root.eval (statement.commit session.environment)
      (.ok result.1, { session with environment := result.2 }) := by
  simp [evaluate, parse, run, parsed]

/-- Evaluating a statement lets the same statements wait. -/
theorem backlog_evaluate (session : Session) (text : String) :
    (session.evaluate text).2.backlog = session.backlog := by
  simp only [evaluate, parse]
  cases Statement.parse? text session.environment <;> rfl

theorem length_evaluateEach (session : Session) (texts : List String) :
    (session.evaluateEach texts).1.length = texts.length := by
  induction texts generalizing session with
  | nil => rfl
  | cons text texts textsHypothesis =>
      simp only [evaluateEach, List.length_cons, textsHypothesis]

/-- Evaluating texts leaves the backlog alone. -/
theorem backlog_evaluateEach (session : Session) (texts : List String) :
    (session.evaluateEach texts).2.backlog = session.backlog := by
  induction texts generalizing session with
  | nil => rfl
  | cons text texts textsHypothesis =>
      exact (textsHypothesis (session.evaluate text).2).trans
        (session.backlog_evaluate text)

/-- What an evaluation reports and leaves, behind earlier outcomes. -/
def reportBehind
    (earlier : List Outcome)
    (result : List Outcome × Session) : List Outcome × Session :=
  (earlier ++ result.1, result.2)

@[simp] theorem reportBehind_nil (result : List Outcome × Session) :
    reportBehind [] result = result := rfl

/-- Outcomes in front of a report are put there in their order. -/
theorem reportBehind_append
    (first second : List Outcome)
    (result : List Outcome × Session) :
    reportBehind (first ++ second) result =
      reportBehind first (reportBehind second result) := by
  simp only [reportBehind, List.append_assoc]

/-- Statements of two lists are evaluated one list after the other. -/
theorem evaluateEach_append
    (session : Session)
    (texts later : List String) :
    session.evaluateEach (texts ++ later) =
      reportBehind (session.evaluateEach texts).1
        ((session.evaluateEach texts).2.evaluateEach later) := by
  induction texts generalizing session with
  | nil => rfl
  | cons text texts textsHypothesis =>
      simp only [List.cons_append, evaluateEach, textsHypothesis, reportBehind]

/-- The entry of a statement is its outcome in the session that the statements
before it leave. -/
theorem getElem?_evaluateEach
    (session : Session)
    (texts : List String)
    (index : Nat) :
    (session.evaluateEach texts).1[index]? =
      texts[index]?.map fun text =>
        ((session.evaluateEach (texts.take index)).2.evaluate text).1 := by
  induction texts generalizing session index with
  | nil => rfl
  | cons text texts textsHypothesis =>
      cases index with
      | zero => rfl
      | succ index => exact textsHypothesis (session.evaluate text).2 index

/-- Statements wait in the order in which they are submitted. -/
theorem foldl_submit (session : Session) (texts : List String) :
    texts.foldl submit session =
      { session with backlog := session.backlog ++ texts } := by
  induction texts generalizing session with
  | nil => simp
  | cons text texts textsHypothesis =>
      simp only [List.foldl_cons, textsHypothesis, submit, List.append_assoc,
        List.singleton_append]

/-- Evaluating statements that were submitted to a fresh session is evaluating
them one after another. -/
theorem evaluateAll_foldl_submit (texts : List String) :
    (texts.foldl submit fresh).evaluateAll = fresh.evaluateEach texts := by
  rw [foldl_submit]
  rfl

end Session

end LineCalculator
