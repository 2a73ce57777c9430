import LineCalculator.Expr
import LineCalculator.Statement

/-!
# Sessions

A session holds the variables and the statements that wait to be evaluated. A
statement that cannot be read is reported and changes nothing. A tree that was
read can be run any number of times; the steps before a name take effect when
the statement is read and not when its tree is run.
-/

namespace LineCalculator

/-- Why a statement has no value. -/
inductive StatementError
  | unparsable (statement : String)
  deriving DecidableEq

namespace StatementError

/-- The report of a statement that cannot be read, which quotes it. -/
def message : StatementError → String
  | .unparsable statement =>
      "'" ++ statement ++ "' is neither an assignment nor a calculation"

end StatementError

/-- The value of a statement, or why it has none. -/
abbrev Outcome := Except StatementError Float

/-- Outcomes are compared by their values or their errors. -/
instance decidableEqOutcome : DecidableEq Outcome
  | .ok left, .ok right => decidable_of_iff (left = right) (by simp)
  | .error left, .error right => decidable_of_iff (left = right) (by simp)
  | .ok _, .error _ => isFalse (by simp)
  | .error _, .ok _ => isFalse (by simp)

/-- The variables and the statements that wait, in order of submission. -/
structure Session where
  environment : Environment
  backlog : List String

namespace Session

/-- The session without variables and statements. -/
def fresh : Session :=
  ⟨.empty, []⟩

/-- The number of statements that wait. -/
def pending (session : Session) : Nat :=
  session.backlog.length

/-- Let a statement wait behind the others. -/
def submit (session : Session) (text : String) : Session :=
  { session with backlog := session.backlog ++ [text] }

/-- Read a statement and apply the steps before its names. -/
def parse (session : Session) (text : String) : Option Expr × Session :=
  match Statement.parse? text session.environment with
  | none => (none, session)
  | some statement =>
      (some statement.root,
        { session with environment := statement.commit session.environment })

/-- Evaluate a tree in the session. -/
def run (session : Session) (tree : Expr) : Float × Session :=
  let (value, environment) := tree.eval session.environment
  (value, { session with environment })

/-- Read a statement and evaluate its tree. -/
def evaluate (session : Session) (text : String) : Outcome × Session :=
  match session.parse text with
  | (none, session) => (.error (.unparsable text), session)
  | (some tree, session) =>
      let (value, session) := session.run tree
      (.ok value, session)

/-- Evaluate statements one after another. -/
def evaluateEach (session : Session) : List String → List Outcome × Session
  | [] => ([], session)
  | text :: texts =>
      let (outcome, session) := session.evaluate text
      let (outcomes, session) := session.evaluateEach texts
      (outcome :: outcomes, session)

/-- Evaluate all statements that wait, after which none waits. -/
def evaluateAll (session : Session) : List Outcome × Session :=
  { session with backlog := [] }.evaluateEach session.backlog

/-- The value of a variable. -/
def lookup (session : Session) (name : String) : Float :=
  session.environment.lookup name

/-- The names of the variables, longer ones first. -/
def variableNames (session : Session) : List String :=
  session.environment.namesByLength

end Session

end LineCalculator
