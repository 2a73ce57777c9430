import LineCalculator.Proofs.Expr.Writing
import LineCalculator.Proofs.Grammar.Embedding
import LineCalculator.Proofs.Session.Names

/-!
# Replaying the text of an environment

The text of an environment is a list of assignments. No name and no number has a
comma in it, so the assignments are found again between the commas, and as long
as the numbers read back they bind the same names to the same values in the same
order.
-/

namespace LineCalculator

namespace Environment

/-- The parts between the commas of a text without its first and its last
character. -/
def entriesOf (text : String) : List String :=
  ((text.toList.tail.dropLast).splitOn ',').map String.ofList

/-- An environment that can be written: there are variables, and their values
read back. -/
structure Writable (environment : Environment) : Prop
    extends WellNamed environment where
  nonempty : environment.bindings ≠ []
  readsBack : ∀ binding ∈ environment.bindings,
    Number.ReadsBack binding.value

variable {environment : Environment} {binding : Binding}

/-- The text of a binding has no comma, so entries can be told apart by
them. -/
theorem not_mem_comma_bindingText
    (isIdentifier : Token.IsIdentifier binding.name.toList)
    (readsBack : Number.ReadsBack binding.value) :
    ',' ∉ (bindingText binding).toList := by
  obtain ⟨numeral, wellFormed, same, -⟩ := readsBack
  have noName : ',' ∉ binding.name.toList :=
    fun member => absurd (isIdentifier.isAlphanum member) (by decide)
  have noNumber : ',' ∉ numeral.characters :=
    wellFormed.not_mem (by decide) (by decide)
  simpa [bindingText, ← same] using ⟨noName, noNumber⟩

/-- The entries of the text of an environment are the texts of its bindings. -/
theorem Writable.entriesOf_text (writable : environment.Writable) :
    entriesOf environment.text = environment.bindings.map bindingText := by
  have noComma : ∀ entry ∈
      (environment.bindings.map bindingText).map String.toList, ',' ∉ entry := by
    intro entry member
    simp only [List.mem_map, exists_exists_and_eq_and] at member
    obtain ⟨binding, bound, rfl⟩ := member
    exact not_mem_comma_bindingText
      (writable.identifiers _ (List.mem_map_of_mem bound))
      (writable.readsBack binding bound)
  have nonempty :
      (environment.bindings.map bindingText).map String.toList ≠ [] := by
    simpa using writable.nonempty
  have inner : environment.text.toList.tail.dropLast =
      [','].intercalate
        ((environment.bindings.map bindingText).map String.toList) := by
    simp [text, String.toList_intercalate]
  rw [entriesOf, inner, List.splitOn_intercalate ',' noComma nonempty,
    List.map_map]
  simp

/-- A new name is bound behind all others. -/
theorem recordBinding_of_not_mem
    {bindings : List Binding}
    {name : String}
    (unbound : name ∉ bindings.map Binding.name)
    (value : Float) :
    recordBinding name value bindings = bindings ++ [⟨name, value⟩] := by
  induction bindings with
  | nil => rfl
  | cons binding bindings bindingsHypothesis =>
      simp only [List.map_cons, List.mem_cons, not_or] at unbound
      have different : binding.name ≠ name := fun equal => unbound.1 equal.symm
      rw [recordBinding, if_neg different, bindingsHypothesis unbound.2,
        List.cons_append]

/-- A name that is not bound is recorded behind the others. -/
theorem record_of_not_mem
    (unbound : binding.name ∉ environment.names) :
    environment.record binding.name binding.value =
      ⟨environment.bindings ++ [binding]⟩ := by
  rw [record, recordBinding_of_not_mem unbound]

end Environment

namespace Session

variable {session : Session} {binding : Binding}

/-- The text of a number that reads back is read as a literal. -/
theorem parse?_text_of_readsBack
    {environment : Environment}
    {value : Float}
    (identifiers : ∀ name ∈ environment.names, Token.IsIdentifier name.toList)
    (readsBack : Number.ReadsBack value) :
    Statement.parse? (Number.text value) environment =
      some ⟨.literal value, []⟩ := by
  obtain ⟨numeral, wellFormed, same, rfl⟩ := readsBack
  have spaced : Grammar.Spaced environment.names .operand numeral.characters
      (.literal numeral.toFloat) :=
    .number wellFormed
  apply Statement.parse?_of_spaced identifiers
  rw [Number.toList_text, ← same]
  exact .oneTerm (.oneFactor (.operand spaced))

/-- Evaluating the text of a binding records it behind the others when its name
is not bound. -/
theorem evaluate_bindingText
    (identifiers : ∀ name ∈ session.environment.names,
      Token.IsIdentifier name.toList)
    (isIdentifier : Token.IsIdentifier binding.name.toList)
    (readsBack : Number.ReadsBack binding.value)
    (unbound : binding.name ∉ session.environment.names) :
    session.evaluate (Environment.bindingText binding) =
      (.ok binding.value,
        { session with environment :=
            ⟨session.environment.bindings ++ [binding]⟩ }) := by
  have parsed : Statement.parse? (Environment.bindingText binding)
      session.environment =
        some ⟨.assignment binding.name (.literal binding.value), []⟩ := by
    have assigned : Statement.parse? (binding.name ++ "" ++ "=" ++
          Number.text binding.value) session.environment =
        some ⟨.assignment binding.name (.literal binding.value), []⟩ :=
      Statement.parse?_assignment
        (parse?_text_of_readsBack identifiers readsBack) nofun isIdentifier
        (by simp)
    simpa [Environment.bindingText] using assigned
  rw [evaluate_of_some parsed]
  simp only [Statement.commit, Environment.applySteps, List.foldl_nil,
    Expr.eval_assignment, Expr.eval_literal, Environment.record_of_not_mem unbound]

/-- Evaluating the texts of bindings whose names are new and distinct records
them one after another, each where all that stand before it are bound. -/
theorem evaluateEach_bindingTexts
    (before bindings : List Binding)
    (backlog : List String)
    (identifiers : ∀ name ∈ (before ++ bindings).map Binding.name,
      Token.IsIdentifier name.toList)
    (distinct : ((before ++ bindings).map Binding.name).Nodup)
    (readsBack : ∀ binding ∈ bindings, Number.ReadsBack binding.value) :
    evaluateEach ⟨⟨before⟩, backlog⟩ (bindings.map Environment.bindingText) =
      (bindings.map fun binding => .ok binding.value,
        ⟨⟨before ++ bindings⟩, backlog⟩) := by
  induction bindings generalizing before with
  | nil => simp [evaluateEach]
  | cons binding bindings bindingsHypothesis =>
      obtain ⟨readsBackHere, readsBackLater⟩ := List.forall_mem_cons.mp readsBack
      have split : before ++ binding :: bindings =
          (before ++ [binding]) ++ bindings := by
        simp
      have here : evaluate ⟨⟨before⟩, backlog⟩
          (Environment.bindingText binding) =
            (.ok binding.value, ⟨⟨before ++ [binding]⟩, backlog⟩) := by
        rw [List.map_append] at identifiers distinct
        have apart := (List.nodup_append.mp distinct).2.2
        apply evaluate_bindingText _ _ readsBackHere
        · exact fun bound => apart _ bound _ List.mem_cons_self rfl
        · exact fun name bound => identifiers name (List.mem_append_left _ bound)
        · exact identifiers _ (List.mem_append_right _ List.mem_cons_self)
      rw [split] at identifiers distinct ⊢
      simp only [List.map_cons, evaluateEach, here,
        bindingsHypothesis (before ++ [binding]) identifiers distinct
          readsBackLater]

/-- The text of an environment with variables whose values read back has one
entry for each binding. The entries are statements that give a fresh session the
same bindings, so no other such environment has the same text. -/
theorem texts_of_environments_replay
    (environment : Environment)
    (writable : environment.Writable) :
    let statements := Environment.entriesOf environment.text
    statements = environment.bindings.map Environment.bindingText ∧
      (statements.foldl submit fresh).evaluateAll =
        (environment.bindings.map fun binding => .ok binding.value,
          ⟨environment, []⟩) ∧
      ∀ other : Environment, other.Writable →
        other.text = environment.text → other = environment := by
  have replays {environment : Environment} (writable : environment.Writable) :
      ((Environment.entriesOf environment.text).foldl submit fresh).evaluateAll =
        (environment.bindings.map fun binding => .ok binding.value,
          ⟨environment, []⟩) := by
    rw [evaluateAll_foldl_submit, writable.entriesOf_text]
    exact evaluateEach_bindingTexts [] environment.bindings []
      writable.identifiers writable.distinct writable.readsBack
  refine ⟨writable.entriesOf_text, replays writable, ?_⟩
  intro other otherWritable sameText
  have same := replays otherWritable
  rw [sameText, replays writable] at same
  exact (congrArg (fun result => result.2.environment) same).symm

/-- Names that start with one another, the name of a function and a name that
looks like an exponent are no obstacle. -/
theorem texts_of_environments_replay_with_similar_names :
    let environment : Environment :=
      ⟨[⟨"e5", 0.1⟩, ⟨"e", 20.0⟩, ⟨"sin", 1.5⟩, ⟨"e50", 0.0⟩]⟩
    let statements := ["e5=0.1", "e=20", "sin=1.5", "e50=0"]
    environment.Writable ∧
      environment.text = "(e5=0.1,e=20,sin=1.5,e50=0)" ∧
      Environment.entriesOf environment.text = statements ∧
      (statements.foldl submit fresh).evaluateAll =
        ([.ok 0.1, .ok 20.0, .ok 1.5, .ok 0.0], ⟨environment, []⟩) := by
  intro environment statements
  have readsBack : ∀ binding ∈ environment.bindings,
      Number.ReadsBack binding.value := by
    decide +kernel
  have writable : environment.Writable :=
    { distinct := by unfold Environment.Distinct; decide
      identifiers := by decide
      nonempty := by simp [environment]
      readsBack }
  have text : environment.text = "(e5=0.1,e=20,sin=1.5,e50=0)" := by
    decide +kernel
  obtain ⟨entries, replayed, -⟩ :=
    texts_of_environments_replay environment writable
  have same : Environment.entriesOf environment.text = statements := by
    rw [text]
    decide +kernel
  rw [same] at replayed
  exact ⟨writable, text, same, replayed⟩

end Session

end LineCalculator
