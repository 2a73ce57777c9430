import LineCalculator.Proofs.Grammar.CoupledStatements
import LineCalculator.Proofs.Grammar.StagedAttempts
import LineCalculator.Proofs.Token.Chunk

/-!
# Blanks between chunks

Two statements with the same chunks are read alike: a scope is coupled with
itself by the equality of chunks, since every reader is local and no symbol and
no bound name has a blank in it. How many blanks stand between two chunks, and
which ones, is of no account, nor are blanks at either end.
-/

namespace LineCalculator

namespace Token

theorem IsFixed.isLocal
    {reader : Reader α}
    (fixed : IsFixed reader) :
    IsLocal reader := by
  cases fixed with
  | number => exact isLocal_number
  | identifier => exact isLocal_identifier
  | character expected => exact isLocal_character expected
  | step =>
      apply isLocal_anyOf
      intro step _
      cases step <;> decide
  | operator operators =>
      apply isLocal_anyOf
      intro operator _
      cases operator <;> decide
  | compound operator =>
      apply isLocal_literal
      cases operator <;> decide
  | function =>
      apply isLocal_anyOf
      intro function _
      cases function <;> decide

end Token

namespace Grammar

/-- Texts correspond when they have the same chunks. -/
def Correspondence.respaced (environment : Environment) :
    Correspondence (Scope.staging environment) (Scope.staging environment) where
  Text text text' := chunks text = chunks text'
  Record := Eq
  Tree _ := Eq
  LeftExtends := Appends environment.names
  RightExtends := Appends environment.names

/-- Texts with the same chunks correspond, when no name has a blank in it. -/
theorem Correspondence.lawful_respaced
    {environment : Environment}
    (solid : ∀ name ∈ environment.names, Solid name.toList) :
    (respaced environment).Lawful := by
  have reversible := reversible_staging environment
  refine lawful_of_sameTrees reversible reversible ?_ ?_ ?_
    (fun _ => Iff.rfl) ?_ ?_
  · intro α reader fixed text text' same
    exact fixed.isLocal.agree fixed.consumes same
  · intro text text' same
    have isLocal : Token.IsLocal
        (Token.anyOf id (Scope.staging environment).names) := by
      apply Token.isLocal_anyOf
      intro name member
      exact solid name (Environment.mem_namesByLength.mp member)
    exact isLocal.agree (Token.consumes_anyOf _ _) same
  · intro text text' same
    rw [Bool.eq_iff_iff, Token.atEnd_iff_chunks, Token.atEnd_iff_chunks, same]
  · rintro steps _ rfl name step
    rfl
  · rintro steps _ rfl name
    rfl

/-- The staging scope is coupled with itself on texts with the same chunks. -/
def respaced
    {environment : Environment}
    (solid : ∀ name ∈ environment.names, Solid name.toList) :
    Coupling (Scope.staging environment) (Scope.staging environment) where
  toCorrespondence := .respaced environment
  toLawful := Correspondence.lawful_respaced solid

end Grammar

namespace Statement

/-- Texts with the same chunks are the same statement. -/
theorem parse?_eq_of_chunks_eq
    {environment : Environment}
    (solid : ∀ name ∈ environment.names, Solid name.toList)
    {text text' : String}
    (same : chunks text.toList = chunks text'.toList) :
    parse? text environment = parse? text' environment :=
  parse?_eq_of_coupling (Grammar.respaced solid) (fun _ _ => id) (fun _ _ => id)
    same rfl

/-- When no bound name has a blank in it, blanks matter only as the ends of
chunks: statements with the same chunks are read alike, blanks at either end of
a statement may be left out, and a nonempty gap of blanks may be replaced by any
other one. -/
theorem parse?_depends_on_chunks
    (environment : Environment)
    (visible : ∀ name ∈ environment.names, ∀ character ∈ name.toList,
      isBlank character = false) :
    (∀ text text' : String, chunks text.toList = chunks text'.toList →
      parse? text environment = parse? text' environment) ∧
    (∀ before text after : String,
      (∀ character ∈ before.toList, isBlank character = true) →
      (∀ character ∈ after.toList, isBlank character = true) →
        parse? (before ++ text ++ after) environment =
          parse? text environment) ∧
    (∀ front gap gap' text : String, gap ≠ "" → gap' ≠ "" →
      (∀ character ∈ gap.toList, isBlank character = true) →
      (∀ character ∈ gap'.toList, isBlank character = true) →
        parse? (front ++ gap ++ text) environment =
          parse? (front ++ gap' ++ text) environment) := by
  have alike {text text' : String} :=
    @parse?_eq_of_chunks_eq environment visible text text'
  refine ⟨fun text text' => alike, ?_, ?_⟩
  · intro before text after beforeBlank afterBlank
    apply alike
    have inkless := fun character member => isInk_eq_false.mpr
      (beforeBlank character member)
    have inkless' := fun character member => isInk_eq_false.mpr
      (afterBlank character member)
    rw [String.toList_append, String.toList_append, chunks,
      runs_append_others inkless', runs_append_of_others inkless]
    rfl
  · intro front gap gap' text nonempty nonempty' blank blank'
    apply alike
    have separated {gap : String}
        (nonempty : gap ≠ "")
        (blank : ∀ character ∈ gap.toList, isBlank character = true) :
        chunks (front ++ gap ++ text).toList =
          chunks front.toList ++ chunks text.toList := by
      have inkless := fun character member => isInk_eq_false.mpr
        (blank character member)
      rw [String.toList_append, String.toList_append]
      exact runs_append_gap inkless (by simpa using nonempty) _ _
    rw [separated nonempty blank, separated nonempty' blank']

/-- Tabs and wide spaces between the chunks of `a++ + b`, and blanks at its ends,
leave the statement as it is. -/
theorem parse?_depends_on_chunks_of_sum :
    let environment : Environment := ⟨[⟨"a", 1.0⟩, ⟨"b", 2.0⟩]⟩
    (∀ name ∈ environment.names, ∀ character ∈ name.toList,
      isBlank character = false) ∧
      parse? "\ta++\u2003+\u3000 b " environment = some
        ⟨.binary .addition (.postStep "a" .increment) (.var "b"), []⟩ := by
  intro environment
  have visible : ∀ name ∈ environment.names, Solid name.toList := by
    decide
  have same : chunks "\ta++\u2003+\u3000 b ".toList =
      chunks "a++ + b".toList := by
    decide
  have sorted : environment.namesByLength = ["a", "b"] := by
    change ["a", "b"].mergeSort _ = _
    simp +decide [List.mergeSort]
  have parsed : parse? "a++ + b" environment = some
      ⟨.binary .addition (.postStep "a" .increment) (.var "b"), []⟩ := by
    rw [parse?_of_namesByLength sorted]
    decide +kernel
  have respaced := (parse?_depends_on_chunks environment visible).1 _ _ same
  exact ⟨visible, respaced.trans parsed⟩

end Statement

end LineCalculator
