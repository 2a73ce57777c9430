import LineCalculator.Console
import LineCalculator.Proofs.Session.Evaluation

/-!
# Both modes agree

In batch mode the statements wait until no more lines are heard; in interactive
mode each of them is evaluated at once. Both modes hear the same lines, end in
the same way and leave the same variables, and the answers of an interactive
dialogue are the entries of the report that evaluating the waiting statements
gives. Showing trees only writes a tree in front of a value.
-/

namespace LineCalculator

namespace Session

/-- The trees that statements are read as while they are evaluated one after
another. -/
def treesOf (session : Session) : List String → List (Option Expr)
  | [] => []
  | text :: texts =>
      (session.parse text).1 :: (session.evaluate text).2.treesOf texts

/-- The statements with a tree are those with a value. -/
theorem map_isSome_treesOf (session : Session) (texts : List String) :
    (session.treesOf texts).map Option.isSome =
      (session.evaluateEach texts).1.map Except.isOk := by
  induction texts generalizing session with
  | nil => rfl
  | cons text texts textsHypothesis =>
      have here : (session.parse text).1.isSome =
          (session.evaluate text).1.isOk := by
        simp only [evaluate]
        rcases session.parse text with ⟨_ | tree, after⟩ <;> rfl
      simp only [treesOf, evaluateEach, List.map_cons, here, textsHypothesis]

/-- Every text has its place among the trees, whether or not it can be read. -/
theorem length_treesOf (session : Session) (texts : List String) :
    (session.treesOf texts).length = texts.length := by
  simpa [length_evaluateEach] using
    congrArg List.length (map_isSome_treesOf session texts)

end Session

namespace Console

/-- The lines in front of the first empty one. -/
def heardLines (lines : List (List UInt8)) : List (List UInt8) :=
  lines.takeWhile fun line => !line.isEmpty

/-- The statements in front of the first line that is no text. -/
def statementsOf : List (List UInt8) → List String
  | [] => []
  | line :: lines =>
      match decodeLine? line with
      | none => []
      | some statement => statement :: statementsOf lines

/-- Whether all lines are texts. -/
def allTexts (lines : List (List UInt8)) : Bool :=
  lines.all fun line => (decodeLine? line).isSome

/-- The lines are texts when the first one is and the others are. -/
theorem allTexts_cons (line : List UInt8) (lines : List (List UInt8)) :
    allTexts (line :: lines) =
      ((decodeLine? line).isSome && allTexts lines) := rfl

/-- Lines that are all texts are the texts of their statements. -/
theorem map_decodeLine?_of_allTexts
    {lines : List (List UInt8)}
    (all : allTexts lines = true) :
    lines.map decodeLine? = (statementsOf lines).map some := by
  induction lines with
  | nil => rfl
  | cons line lines linesHypothesis =>
      rw [allTexts_cons, Bool.and_eq_true] at all
      obtain ⟨statement, decoded⟩ := Option.isSome_iff_exists.mp all.1
      simp only [statementsOf, List.map_cons, decoded, linesHypothesis all.2]

/-- The statements of other lines are the texts of the lines in front of the
first one that is no text. -/
theorem exists_map_decodeLine?_of_not_allTexts
    {lines : List (List UInt8)}
    (notAll : allTexts lines = false) :
    ∃ later, lines.map decodeLine? =
      (statementsOf lines).map some ++ none :: later := by
  induction lines with
  | nil => simp [allTexts] at notAll
  | cons line lines linesHypothesis =>
      rcases decoded : decodeLine? line with _ | statement
      · refine ⟨lines.map decodeLine?, ?_⟩
        simp only [statementsOf, List.map_cons, decoded, List.map_nil,
          List.nil_append]
      · rw [allTexts_cons, decoded, Option.isSome_some, Bool.true_and] at notAll
        obtain ⟨later, rest⟩ := linesHypothesis notAll
        refine ⟨later, ?_⟩
        simp only [statementsOf, List.map_cons, decoded, rest, List.cons_append]

/-- The line that answers a statement with a given outcome. -/
def reply : Outcome → String
  | .ok value => Number.text value ++ "\n"
  | .error error => "Error, " ++ error.message ++ "\n"

/-- The line that shows the tree of a statement, when there is one. -/
def treeLine : Option Expr → String
  | none => ""
  | some tree => tree.text ++ "\n"

/-- The answer to a statement with a given tree and outcome. -/
def answerText
    (showTree : Bool)
    (tree : Option Expr)
    (outcome : Outcome) : String :=
  (if showTree then treeLine tree else "") ++ reply outcome ++ "> "

/-- The answers to statements with given trees and outcomes. -/
def answerTexts
    (showTree : Bool)
    (trees : List (Option Expr))
    (report : List Outcome) : String :=
  String.join (List.zipWith (answerText showTree) trees report)

/-- Without trees the answers are the entries of the report. -/
theorem answerTexts_false
    {trees : List (Option Expr)}
    {report : List Outcome}
    (lengths : trees.length = report.length) :
    answerTexts false trees report =
      String.join (report.map fun outcome => reply outcome ++ "> ") := by
  have each : List.zipWith (answerText false) trees report =
      report.map fun outcome => reply outcome ++ "> " := by
    induction trees generalizing report with
    | nil =>
        cases report with
        | nil => rfl
        | cons outcome report => simp at lengths
    | cons tree trees treesHypothesis =>
        cases report with
        | nil => simp at lengths
        | cons outcome report =>
            have rest := treesHypothesis (Nat.succ.inj lengths)
            simp only [List.zipWith_cons_cons, List.map_cons, rest, answerText,
              String.empty_append, Bool.false_eq_true, if_false]
  rw [answerTexts, each]

/-- How a dialogue ends that leaves given variables, when all its lines are
texts or not. -/
def ending (readable : Bool) (environment : Environment) : Transcript :=
  if readable then .success (environment.text ++ "\n")
  else .failure ReadError.invalidText.message

/-- When every line was a text, the end writes the variables. -/
theorem after_ending_true (output : String) (environment : Environment) :
    (ending true environment).after output =
      ⟨0, output ++ (environment.text ++ "\n"), ""⟩ := rfl

/-- When a line was no text, the run ends with an error and writes no
variables. -/
theorem after_ending_false (output : String) (environment : Environment) :
    (ending false environment).after output =
      ⟨1, output, "Error: stream did not contain valid UTF-8\n"⟩ := by
  simp only [ending, Transcript.after, Transcript.failure, Bool.false_eq_true,
    if_false, String.append_empty]
  rfl

/-- Output in front of a transcript is written in its order. -/
theorem Transcript.after_after
    (first second : String)
    (transcript : Transcript) :
    (transcript.after second).after first =
      transcript.after (first ++ second) := by
  simp only [after, String.append_assoc]

theorem Transcript.after_empty (transcript : Transcript) :
    transcript.after "" = transcript := by
  simp only [after, String.empty_append]

namespace Dialogue

/-- The answer to a statement tells its outcome, and the dialogue goes on in the
session that evaluating the statement leaves. -/
theorem answer_eq
    (showTree : Bool)
    (session : Session)
    (statement : String) :
    answer showTree session statement =
      ((if showTree then treeLine (session.parse statement).1 else "") ++
          reply (session.evaluate statement).1,
        (session.evaluate statement).2) := by
  simp only [answer, Session.evaluate]
  rcases session.parse statement with ⟨_ | tree, after⟩
  · cases showTree <;> simp [treeLine, reply]
  · cases showTree <;> simp [treeLine, reply, String.append_assoc]

theorem hear_nil (dialogue : Dialogue) :
    dialogue.hear [] = .last dialogue.finish := rfl

/-- A dialogue goes on behind a line with a statement, and it ends at a line that
is no text. -/
theorem hear_of_ne_nil
    {line : List UInt8}
    (nonempty : line ≠ [])
    (dialogue : Dialogue) :
    dialogue.hear line =
      match decodeLine? line with
      | none => .last (.failure ReadError.invalidText.message)
      | some statement => dialogue.hearStatement statement :=
  if_neg (by simpa using nonempty)

/-- In batch mode the statements that are heard are evaluated at the end. -/
theorem hearAll_batch (session : Session) (lines : List (List UInt8)) :
    hearAll ⟨.batch, session⟩ lines =
      ending (allTexts (heardLines lines))
        ((statementsOf (heardLines lines)).foldl Session.submit
          session).evaluateAll.2.environment := by
  induction lines generalizing session with
  | nil => rfl
  | cons line lines linesHypothesis =>
      by_cases empty : line = []
      · subst empty
        rfl
      · have heard : heardLines (line :: lines) = line :: heardLines lines := by
          simp [heardLines, empty]
        simp only [hearAll, hear_of_ne_nil empty, heard, statementsOf, allTexts,
          List.all_cons]
        rcases decodeLine? line with _ | statement
        · rfl
        · simp only [hearStatement, Transcript.after_empty, linesHypothesis,
            Option.isSome_some, Bool.true_and, List.foldl_cons, allTexts]

/-- In interactive mode every statement that is heard is evaluated and
answered. -/
theorem hearAll_interactive
    (showTree : Bool)
    {session : Session}
    (nothingWaits : session.backlog = [])
    (lines : List (List UInt8)) :
    hearAll ⟨.interactive showTree, session⟩ lines =
      (ending (allTexts (heardLines lines))
        (session.evaluateEach
          (statementsOf (heardLines lines))).2.environment).after
        (answerTexts showTree
          (session.treesOf (statementsOf (heardLines lines)))
          (session.evaluateEach (statementsOf (heardLines lines))).1) := by
  induction lines generalizing session with
  | nil =>
      simp only [hearAll, finish, Session.evaluateAll, nothingWaits]
      rfl
  | cons line lines linesHypothesis =>
      by_cases empty : line = []
      · subst empty
        simp only [hearAll, hear_nil, finish, Session.evaluateAll, nothingWaits]
        rfl
      · have heard : heardLines (line :: lines) = line :: heardLines lines := by
          simp [heardLines, empty]
        simp only [hearAll, hear_of_ne_nil empty, heard, statementsOf, allTexts,
          List.all_cons]
        rcases decodeLine? line with _ | statement
        · rfl
        · have waits := (session.backlog_evaluate statement).trans nothingWaits
          simp only [hearStatement, answer_eq, linesHypothesis waits,
            Transcript.after_after, Option.isSome_some, Bool.true_and,
            Session.evaluateEach, Session.treesOf, answerTexts,
            List.zipWith_cons_cons, String.join_cons, answerText, Mode.opening,
            allTexts]

end Dialogue

/-- The arguments that select the modes. -/
theorem run_eq_converse (input : List UInt8) (directory : Directory) :
    run [] input directory = converse .batch input ∧
    run ["--interactive"] input directory = converse (.interactive false) input ∧
    run ["--interactive", "--tree"] input directory =
      converse (.interactive true) input :=
  ⟨rfl, rfl, rfl⟩

/-- A batch dialogue writes its opening, and at its end the variables that the
statements leave or a complaint. -/
theorem converse_batch (input : List UInt8) :
    let heard := heardLines (lines input)
    converse .batch input =
      (ending (allTexts heard)
        (Session.fresh.evaluateEach
          (statementsOf heard)).2.environment).after "Enter expressions: " := by
  intro heard
  rw [converse, Dialogue.hearAll_batch, Session.evaluateAll_foldl_submit]
  rfl

/-- An interactive dialogue writes an answer to each statement between its
opening and its end. -/
theorem converse_interactive (showTree : Bool) (input : List UInt8) :
    let heard := heardLines (lines input)
    converse (.interactive showTree) input =
      (ending (allTexts heard)
        (Session.fresh.evaluateEach (statementsOf heard)).2.environment).after
        ("> " ++ answerTexts showTree
          (Session.fresh.treesOf (statementsOf heard))
          (Session.fresh.evaluateEach (statementsOf heard)).1) := by
  intro heard
  rw [converse, Dialogue.hearAll_interactive showTree rfl,
    Transcript.after_after]
  rfl

/-- In both modes a dialogue ends with the same code and the same complaint, and
it shows the variables that the statements leave when all lines in front of the
first empty one are texts. The answers of an interactive dialogue are the
entries of the report on the statements that a batch dialogue evaluates at its
end; with trees, the tree of a statement stands in front of its value, and a
statement without a value has no tree. The dialogues are those of a run without
arguments, with the option for interactive mode, and with the one for trees
beside it. -/
theorem batch_and_interactive_agree (input : List UInt8) :
    (∀ directory,
      run [] input directory = converse .batch input ∧
      run ["--interactive"] input directory =
        converse (.interactive false) input ∧
      run ["--interactive", "--tree"] input directory =
        converse (.interactive true) input) ∧
    let batch := converse .batch input
    let interactive := converse (.interactive false) input
    let withTrees := converse (.interactive true) input
    let heard := heardLines (lines input)
    let statements := statementsOf heard
    let report := (statements.foldl Session.submit .fresh).evaluateAll.1
    let session := (statements.foldl Session.submit .fresh).evaluateAll.2
    let trees := Session.fresh.treesOf statements
    let answers := String.join
      (report.map fun outcome => reply outcome ++ "> ")
    let answersWithTrees := String.join
      (List.zipWith
        (fun tree outcome => treeLine tree ++ reply outcome ++ "> ")
        trees report)
    report.length = statements.length ∧
    trees.map Option.isSome = report.map Except.isOk ∧
    if allTexts heard then
      let bindings := session.environment.text ++ "\n"
      heard.map decodeLine? = statements.map some ∧
      batch = ⟨0, "Enter expressions: " ++ bindings, ""⟩ ∧
      interactive = ⟨0, "> " ++ answers ++ bindings, ""⟩ ∧
      withTrees = ⟨0, "> " ++ answersWithTrees ++ bindings, ""⟩
    else
      let complaint := "Error: stream did not contain valid UTF-8\n"
      (∃ later, heard.map decodeLine? = statements.map some ++ none :: later) ∧
      batch = ⟨1, "Enter expressions: ", complaint⟩ ∧
      interactive = ⟨1, "> " ++ answers, complaint⟩ ∧
      withTrees = ⟨1, "> " ++ answersWithTrees, complaint⟩ := by
  refine ⟨run_eq_converse input, ?_⟩
  intro batch interactive withTrees heard statements report session trees answers
    answersWithTrees
  have outcome_eq : (statements.foldl Session.submit .fresh).evaluateAll =
      Session.fresh.evaluateEach statements :=
    Session.evaluateAll_foldl_submit statements
  have report_length : report.length = statements.length := by
    simp only [report, outcome_eq, Session.length_evaluateEach]
  have trees_length : trees.length = statements.length :=
    Session.length_treesOf .fresh statements
  have trees_isSome : trees.map Option.isSome = report.map Except.isOk := by
    simp only [report, outcome_eq]
    exact Session.map_isSome_treesOf .fresh statements
  refine ⟨report_length, trees_isSome, ?_⟩
  have batch_eq : batch = (ending (allTexts heard) session.environment).after
      "Enter expressions: " := by
    simp only [session, outcome_eq]
    exact converse_batch input
  have interactive_eq : interactive =
      (ending (allTexts heard) session.environment).after ("> " ++ answers) := by
    have same := answerTexts_false (trees_length.trans report_length.symm)
    simp only [answers, ← same]
    simp only [session, report, outcome_eq]
    exact converse_interactive false input
  have withTrees_eq : withTrees =
      (ending (allTexts heard) session.environment).after
        ("> " ++ answersWithTrees) := by
    simp only [answersWithTrees, session, report, outcome_eq]
    exact converse_interactive true input
  rcases readable : allTexts heard with _ | _
  · simp only [readable, after_ending_false]
      at batch_eq interactive_eq withTrees_eq
    rw [if_neg Bool.false_ne_true]
    exact ⟨exists_map_decodeLine?_of_not_allTexts readable, batch_eq,
      interactive_eq, withTrees_eq⟩
  · simp only [readable, after_ending_true]
      at batch_eq interactive_eq withTrees_eq
    rw [if_pos rfl]
    simp only [String.append_assoc]
    exact ⟨map_decodeLine?_of_allTexts readable, batch_eq, interactive_eq,
      withTrees_eq⟩

end Console

end LineCalculator
