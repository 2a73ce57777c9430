import LineCalculator.Proofs.Grammar.InterchangeStatements
import LineCalculator.Proofs.Grammar.WholeNames
import LineCalculator.Proofs.Session.Names

/-!
# Variables that a statement does not mention

What a statement does depends only on the variables that are words of its text,
and it changes no others. Two sessions that agree on these variables read the
statement alike and give it the same outcome, although a bound name of one of
them may be found inside a word.
-/

namespace LineCalculator

namespace Session

variable {session : Session}

/-- A statement leaves the bindings of names that are no words of its text as
they are. -/
theorem others_evaluate
    (wellNamed : session.environment.WellNamed)
    (text : String) :
    (session.evaluate text).2.environment.others (words text.toList) =
      session.environment.others (words text.toList) := by
  rcases parsed : Statement.parse? text session.environment with _ | statement
  · rw [evaluate_of_none parsed]
  · obtain ⟨root, steps⟩ :=
      Grammar.mentionsOnly_of_parse? wellNamed.identifiers parsed
    rw [evaluate_of_some parsed]
    calc
      _ = (statement.commit session.environment).others (words text.toList) :=
        root.others_eval _
      _ = session.environment.others (words text.toList) :=
        session.environment.others_applySteps steps

/-- Sessions whose variables agree on the words of a statement read it alike and
give it the same value or the same error. Their variables agree on these words
afterwards, and the bindings of other names are what they were. -/
theorem unmentioned_variables_do_not_matter
    (text : String)
    (left right : Session)
    (leftNamed : left.environment.WellNamed)
    (rightNamed : right.environment.WellNamed)
    (agree : left.environment.AgreeOn (words text.toList) right.environment) :
    Statement.parse? text left.environment =
        Statement.parse? text right.environment ∧
      (left.evaluate text).1 = (right.evaluate text).1 ∧
      (left.evaluate text).2.environment.AgreeOn (words text.toList)
        (right.evaluate text).2.environment ∧
      (left.evaluate text).2.environment.others (words text.toList) =
        left.environment.others (words text.toList) ∧
      (right.evaluate text).2.environment.others (words text.toList) =
        right.environment.others (words text.toList) := by
  have same : Statement.parse? text left.environment =
      Statement.parse? text right.environment :=
    Statement.parse?_eq_of_interchangeable
      ⟨leftNamed.identifiers, rightNamed.identifiers, agree⟩
  refine ⟨same, ?_⟩
  rw [← and_assoc]
  refine ⟨?_, others_evaluate leftNamed text, others_evaluate rightNamed text⟩
  rcases parsed : Statement.parse? text left.environment with _ | statement
  · rw [evaluate_of_none parsed, evaluate_of_none (same.symm.trans parsed)]
    exact ⟨rfl, agree⟩
  · obtain ⟨root, steps⟩ :=
      Grammar.mentionsOnly_of_parse? leftNamed.identifiers parsed
    obtain ⟨values, after⟩ := root.eval_agree (agree.applySteps steps)
    rw [evaluate_of_some parsed, evaluate_of_some (same.symm.trans parsed)]
    exact ⟨congrArg Except.ok values, after⟩

/-- The names `a` and `b` stand inside the words of `ab-- + ++ab`. Whether they
are bound makes no difference, and `a` keeps its value. -/
theorem unmentioned_variables_do_not_matter_inside_words :
    let text := "ab-- + ++ab"
    let left : Session := ⟨⟨[⟨"a", 5.0⟩, ⟨"ab", 2.0⟩]⟩, []⟩
    let right : Session := ⟨⟨[⟨"ab", 2.0⟩, ⟨"b", 7.0⟩]⟩, []⟩
    left.environment.WellNamed ∧ right.environment.WellNamed ∧
      left.environment.AgreeOn (words text.toList) right.environment ∧
      (left.evaluate text).1 = (right.evaluate text).1 ∧
      (left.evaluate text).2.environment.others (words text.toList) =
        [⟨"a", 5.0⟩] := by
  intro text left right
  have leftNamed : left.environment.WellNamed :=
    ⟨by unfold Environment.Distinct; decide, by decide⟩
  have rightNamed : right.environment.WellNamed :=
    ⟨by unfold Environment.Distinct; decide, by decide⟩
  have agree :
      left.environment.AgreeOn (words text.toList) right.environment := by
    unfold Environment.AgreeOn
    decide
  have unmentioned := unmentioned_variables_do_not_matter text left right
    leftNamed rightNamed agree
  refine ⟨leftNamed, rightNamed, agree, unmentioned.2.1, ?_⟩
  rw [unmentioned.2.2.2.1]
  decide

end Session

end LineCalculator
