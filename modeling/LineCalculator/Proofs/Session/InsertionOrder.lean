import LineCalculator.Proofs.Environment.SameMap
import LineCalculator.Proofs.Grammar.Counterparts
import LineCalculator.Proofs.Session.Names

/-!
# Order of insertion

The bound names are tried in an order that depends on when they were first
recorded. Names of one length differ, so at most one of each length stands in
front of a text, and the name that is read does not depend on that order.
Sessions that hold the same map therefore read and evaluate the same statements
alike, and hold the same map after each of them.
-/

namespace LineCalculator

namespace Statement

/-- In the same map a text is read as the same statement. -/
theorem parse?_eq_of_sameMap
    {left right : Environment}
    (same : Environment.SameMap left right)
    (text : String) :
    parse? text left = parse? text right :=
  parse?_eq_of_lookup_eq text same.mem_names_iff same.lookup_eq

end Statement

namespace Session

variable {left right : Session}

/-- One statement has the same outcome in both sessions and leaves them with the
same map. -/
theorem evaluate_of_sameMap
    (same : left.environment.SameMap right.environment)
    (text : String) :
    (left.evaluate text).1 = (right.evaluate text).1 ∧
      (left.evaluate text).2.environment.SameMap
        (right.evaluate text).2.environment := by
  have sameParse := Statement.parse?_eq_of_sameMap same text
  rcases parsed : Statement.parse? text left.environment with _ | statement
  · rw [evaluate_of_none parsed, evaluate_of_none (sameParse.symm.trans parsed)]
    exact ⟨rfl, same⟩
  · obtain ⟨values, after⟩ :=
      (same.applySteps statement.steps).eval statement.root
    rw [evaluate_of_some parsed, evaluate_of_some (sameParse.symm.trans parsed)]
    exact ⟨congrArg Except.ok values, after⟩

/-- In the same map texts have the same outcomes, and leave the same map. -/
theorem evaluateEach_of_sameMap
    (same : left.environment.SameMap right.environment)
    (texts : List String) :
    (left.evaluateEach texts).1 = (right.evaluateEach texts).1 ∧
      (left.evaluateEach texts).2.environment.SameMap
        (right.evaluateEach texts).2.environment := by
  induction texts generalizing left right with
  | nil => exact ⟨rfl, same⟩
  | cons text texts textsHypothesis =>
      obtain ⟨outcomes, after⟩ := evaluate_of_sameMap same text
      obtain ⟨later, afterLater⟩ := textsHypothesis after
      simp only [evaluateEach]
      exact ⟨by rw [outcomes, later], afterLater⟩

/-- Evaluating texts keeps the names distinct. -/
theorem distinct_evaluateEach
    {session : Session}
    (distinct : session.environment.Distinct)
    (texts : List String) :
    (session.evaluateEach texts).2.environment.Distinct := by
  induction texts generalizing session with
  | nil => exact distinct
  | cons text texts textsHypothesis =>
      have next : (session.evaluate text).2.environment.Distinct := by
        rcases parsed : Statement.parse? text session.environment with
          _ | statement
        · rwa [evaluate_of_none parsed]
        · rw [evaluate_of_some parsed]
          exact statement.root.distinct_eval
            (distinct.applySteps statement.steps)
      exact textsHypothesis next

/-- Two sessions whose variables have the same values, recorded in whatever
order, give a list of statements the same outcomes. After any number of these
statements they still hold the same map, with the same bindings in some order,
and read every text alike: as the same tree with the same steps before its
names, or as no statement. -/
theorem insertion_order_is_unobservable
    (left right : Session)
    (leftDistinct : left.environment.Distinct)
    (rightDistinct : right.environment.Distinct)
    (same : left.environment.SameMap right.environment)
    (texts : List String) :
    (left.evaluateEach texts).1 = (right.evaluateEach texts).1 ∧
    ∀ count,
      let before := (left.evaluateEach (texts.take count)).2.environment
      let before' := (right.evaluateEach (texts.take count)).2.environment
      (∀ text, Statement.parse? text before = Statement.parse? text before') ∧
      before.SameMap before' ∧
      before.bindings.Perm before'.bindings := by
  refine ⟨(evaluateEach_of_sameMap same texts).1, fun count => ?_⟩
  have after := (evaluateEach_of_sameMap same (texts.take count)).2
  refine ⟨Statement.parse?_eq_of_sameMap after, after, after.perm ?_ ?_⟩
  · exact distinct_evaluateEach leftDistinct _
  · exact distinct_evaluateEach rightDistinct _

/-- The names `ab` and `b+` have the same length and are tried in the order in
which they were recorded. In either order `++ab + ++b+` steps both. -/
theorem insertion_order_is_unobservable_at_equal_lengths :
    let left : Session := ⟨⟨[⟨"ab", 1.0⟩, ⟨"b+", 3.0⟩, ⟨"a", 2.0⟩]⟩, []⟩
    let right : Session := ⟨⟨[⟨"a", 2.0⟩, ⟨"b+", 3.0⟩, ⟨"ab", 1.0⟩]⟩, []⟩
    let texts := ["++ab + ++b+", "c = a++ + ab", "a c"]
    let outcomes : List Outcome :=
      [.ok 6.0, .ok 4.0, .error (.unparsable "a c")]
    left.environment.Distinct ∧ right.environment.Distinct ∧
      left.environment.SameMap right.environment ∧
      (left.evaluateEach texts).1 = outcomes ∧
      (right.evaluateEach texts).1 = outcomes := by
  intro left right texts outcomes
  have leftDistinct : left.environment.Distinct := by
    unfold Environment.Distinct
    decide
  have rightDistinct : right.environment.Distinct := by
    unfold Environment.Distinct
    decide
  have same : left.environment.SameMap right.environment :=
    Environment.sameMap_of_perm leftDistinct (by decide)
  let sum : Statement := ⟨.binary .addition (.literal 2.0) (.literal 4.0),
    [⟨"ab", .increment⟩, ⟨"b+", .increment⟩]⟩
  let assignment : Statement := ⟨.assignment "c"
    (.binary .addition (.postStep "a" .increment) (.var "ab")), []⟩
  let second : Session := ⟨⟨[⟨"ab", 2.0⟩, ⟨"b+", 4.0⟩, ⟨"a", 2.0⟩]⟩, []⟩
  let third : Session :=
    ⟨⟨[⟨"ab", 2.0⟩, ⟨"b+", 4.0⟩, ⟨"a", 3.0⟩, ⟨"c", 4.0⟩]⟩, []⟩
  have stepped : left.evaluate "++ab + ++b+" = (.ok 6.0, second) := by
    have sorted : left.environment.namesByLength = ["ab", "b+", "a"] := by
      change ["ab", "b+", "a"].mergeSort _ = _
      simp +decide [List.mergeSort]
    have parsed :
        Statement.parse? "++ab + ++b+" left.environment = some sum := by
      rw [Statement.parse?_of_namesByLength sorted]
      decide +kernel
    have value : sum.root.eval (sum.commit left.environment) =
        (6.0, second.environment) := by
      decide +kernel
    simp only [evaluate_of_some parsed, value, left, second]
  have assigned : second.evaluate "c = a++ + ab" = (.ok 4.0, third) := by
    have sorted : second.environment.namesByLength = ["ab", "b+", "a"] := by
      change ["ab", "b+", "a"].mergeSort _ = _
      simp +decide [List.mergeSort]
    have parsed :
        Statement.parse? "c = a++ + ab" second.environment = some assignment := by
      rw [Statement.parse?_of_namesByLength sorted]
      decide +kernel
    have value : assignment.root.eval (assignment.commit second.environment) =
        (4.0, third.environment) := by
      decide +kernel
    simp only [evaluate_of_some parsed, value, second, third]
  have unread : third.evaluate "a c" = (.error (.unparsable "a c"), third) := by
    have sorted :
        third.environment.namesByLength = ["ab", "b+", "a", "c"] := by
      change ["ab", "b+", "a", "c"].mergeSort _ = _
      simp +decide [List.mergeSort]
    have unparsable : Statement.parse? "a c" third.environment = none := by
      rw [Statement.parse?_of_namesByLength sorted]
      decide +kernel
    exact evaluate_of_none unparsable
  have values : (left.evaluateEach texts).1 = outcomes := by
    simp only [texts, outcomes, evaluateEach, stepped, assigned, unread]
  have unobservable := insertion_order_is_unobservable left right leftDistinct
    rightDistinct same texts
  exact ⟨leftDistinct, rightDistinct, same, values,
    unobservable.1.symm.trans values⟩

end Session

end LineCalculator
