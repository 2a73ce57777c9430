import LineCalculator.Session

/-!
# Logs of sessions

A log is a session together with the trees that were read in it, in order. Its
actions are everything that can change a session; running a tree refers to a
tree of the log.
-/

namespace LineCalculator

namespace Session

/-- Something to do in a session. -/
inductive Action
  | submit (text : String)
  | evaluateAll
  | evaluate (text : String)
  | parse (text : String)
  | run (slot : Nat)

/-- What an action answers. -/
inductive Answer
  | done
  | report (outcomes : List Outcome)
  | outcome (outcome : Outcome)
  | tree (tree : Option Expr)
  | value (value : Option Float)

/-- A session and the trees that were read in it. -/
structure Log where
  session : Session
  trees : List Expr

namespace Log

/-- The log of a fresh session. -/
def fresh : Log :=
  ⟨.fresh, []⟩

/-- Do something in the session. Running a tree that the log does not have
answers no value and changes nothing. -/
def act (log : Log) : Action → Answer × Log
  | .submit text => (.done, { log with session := log.session.submit text })
  | .evaluateAll =>
      let (outcomes, session) := log.session.evaluateAll
      (.report outcomes, { log with session })
  | .evaluate text =>
      let (outcome, session) := log.session.evaluate text
      (.outcome outcome, { log with session })
  | .parse text =>
      let (tree, session) := log.session.parse text
      (.tree tree, ⟨session, log.trees ++ tree.toList⟩)
  | .run slot =>
      match log.trees[slot]? with
      | none => (.value none, log)
      | some tree =>
          let (value, session) := log.session.run tree
          (.value (some value), { log with session })

/-- Do one thing after another. -/
def actAll (log : Log) (actions : List Action) : Log :=
  actions.foldl (fun log action => (log.act action).2) log

end Log

end Session

end LineCalculator
