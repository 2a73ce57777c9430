import LineCalculator.Proofs.Cursor.Boundary
import LineCalculator.Proofs.Grammar.AtomicRules

/-!
# Attempts over staged steps

The staging scope only appends to its list, so cutting the list back to an
earlier length undoes exactly the steps staged since. Every part of a statement
is therefore read as a whole or not at all: a failure leaves the position and
the staged steps as they were, and a value moves the position to a later
boundary between characters and appends steps on bound names.
-/

namespace LineCalculator

namespace Grammar

/-- A list of staged steps with further steps behind it, all on names of a given
list. -/
def Appends (names : List String) (start finish : List StagedStep) : Prop :=
  ∃ added, finish = start ++ added ∧ ∀ staged ∈ added, staged.name ∈ names

theorem Appends.trans
    {names : List String}
    {first second third : List StagedStep}
    (before : Appends names first second)
    (after : Appends names second third) :
    Appends names first third := by
  obtain ⟨added, rfl, bound⟩ := before
  obtain ⟨later, rfl, laterBound⟩ := after
  refine ⟨added ++ later, List.append_assoc first added later, ?_⟩
  intro staged member
  rcases List.mem_append.mp member with earlier | last
  · exact bound staged earlier
  · exact laterBound staged last

/-- Cutting the list back to its length at the start of an attempt undoes the
steps staged since. -/
theorem reversible_staging (environment : Environment) :
    (Scope.staging environment).Reversible (Appends environment.names) where
  refl steps := ⟨[], by simp, by simp⟩
  trans := Appends.trans
  note := by
    intro name bound steps step
    refine ⟨[⟨name, step⟩], rfl, ?_⟩
    intro staged member
    rw [List.mem_singleton.mp member]
    simpa [Scope.staging] using bound
  rewind := by
    rintro start finish ⟨added, rfl, -⟩
    simp [Scope.staging]

/-- The cursor that stands where the rest of a state begins in a text. -/
def State.cursor (text : String) (state : State σ) : Cursor :=
  ⟨text, text.utf8ByteSize - byteSize state.rest⟩

/-- A state is a state of reading a text when its rest is what remains at a
boundary between characters of that text. -/
def State.On (text : String) (state : State σ) : Prop :=
  (state.cursor text).rest? = some state.rest

/-- A state is on a text when its rest is an end of the text. -/
theorem State.on_iff_suffix
    {text : String}
    {state : State σ} :
    state.On text ↔ state.rest <:+ text.toList := by
  simp only [State.On, State.cursor, Cursor.rest?, dropBytes?_eq_some_iff]
  constructor
  · rintro ⟨front, split, -⟩
    exact ⟨front, split⟩
  · rintro ⟨front, split⟩
    refine ⟨front, split, ?_⟩
    rw [← byteSize_toList, ← split, byteSize_append]
    omega

/-- Less text remains at a later position. -/
theorem State.position_lt
    {text : String}
    {start finish : State σ}
    (startOn : start.On text)
    (suffix : finish.rest <:+ start.rest)
    (shorter : finish.rest.length < start.rest.length) :
    (start.cursor text).position < (finish.cursor text).position := by
  obtain ⟨before, whole⟩ := State.on_iff_suffix.mp startOn
  obtain ⟨taken, split⟩ := suffix
  have nonempty : taken ≠ [] := by
    rintro rfl
    simp only [List.nil_append] at split
    simp [split] at shorter
  have takenPositive := byteSize_pos nonempty
  have whole_size := byteSize_toList text
  rw [← whole, ← split, byteSize_append, byteSize_append] at whole_size
  simp only [State.cursor, ← split, byteSize_append]
  omega

/-- The parts of a statement that are read as a whole or not at all. -/
inductive Part
  | assignment
  | completeSum
  | sum
  | product
  | factor
  | operand
  | group
  | function
  | stepBefore
  | stepAfter
  | call

/-- The rule that reads a part, given the rule for factors and the entries. -/
def Part.ruleOver
    (scope : Scope σ)
    (factor : Rule σ Expr)
    (entries : Entries σ) : Part → Rule σ Expr
  | .assignment => Grammar.assignment scope entries
  | .completeSum => Grammar.completeSum scope entries
  | .sum => Grammar.sum scope factor entries
  | .product => Grammar.product scope factor entries
  | .factor => factor
  | .operand => Grammar.operand scope entries
  | .group => Grammar.group scope entries
  | .function => Grammar.function scope entries
  | .stepBefore => Grammar.stepBefore scope
  | .stepAfter => Grammar.stepAfter scope
  | .call => Grammar.call scope entries

/-- The rule that reads a part of a statement. -/
def Part.rule (scope : Scope σ) (part : Part) : Rule σ Expr :=
  part.ruleOver scope (Grammar.factor scope (calculations scope))
    (calculations scope)

/-- The rule of every part is atomic over a scope that can go back. -/
theorem Part.isAtomic_rule
    {scope : Scope σ}
    {Extends : σ → σ → Prop}
    (reversible : scope.Reversible Extends)
    (part : Part) :
    (part.rule scope).IsAtomic Extends := by
  have proper := proper_calculations reversible
  have factorAtomic := isAtomic_factor reversible proper
  cases part with
  | assignment => exact isAtomic_assignment reversible proper
  | completeSum => exact isAtomic_completeSum reversible proper
  | sum => exact isAtomic_sum reversible proper factorAtomic
  | product => exact isAtomic_product reversible proper factorAtomic
  | factor => exact factorAtomic
  | operand => exact isAtomic_operand reversible proper
  | group => exact isAtomic_group reversible proper
  | function => exact isAtomic_function reversible proper
  | stepBefore => exact isAtomic_stepBefore reversible
  | stepAfter => exact isAtomic_stepAfter reversible
  | call => exact isAtomic_call reversible proper

/-- A part that is not found leaves the state as it was. A part that is found
keeps the steps staged before and appends steps on bound names, and it moves
the position forward to a boundary between characters of the text. -/
theorem part_unchanged_or_advanced
    (text : String)
    (environment : Environment)
    (part : Part)
    (start : State (List StagedStep))
    (startOn : start.On text) :
    match (part.rule (.staging environment)).run start with
    | (none, finish) => finish = start
    | (some _, finish) =>
        (∃ added, finish.steps = start.steps ++ added ∧
          ∀ staged ∈ added, staged.name ∈ environment.names) ∧
        (start.cursor text).position < (finish.cursor text).position ∧
        (finish.cursor text).position ≤ text.utf8ByteSize ∧
        finish.On text := by
  have atomic := part.isAtomic_rule (reversible_staging environment) start
  rcases outcome : (part.rule (.staging environment)).run start with
    ⟨_ | value, finish⟩
  · rw [outcome] at atomic
    exact atomic
  · rw [outcome] at atomic
    obtain ⟨⟨suffix, appends⟩, shorter⟩ := atomic
    have finishOn : finish.On text :=
      State.on_iff_suffix.mpr (suffix.trans (State.on_iff_suffix.mp startOn))
    exact ⟨appends, State.position_lt startOn suffix shorter,
      Nat.sub_le _ _, finishOn⟩

/-- A group that is not closed stages a step and undoes it, and the step staged
before the group stays. -/
theorem group_unchanged_without_parenthesis :
    let environment : Environment := ⟨[⟨"i", 1.0⟩]⟩
    let start : State (List StagedStep) :=
      ⟨"(--i".toList, [⟨"i", .increment⟩]⟩
    start.On "++i * (--i" ∧
      (Part.group.rule (.staging environment)).run start = (none, start) := by
  intro environment start
  have startOn : start.On "++i * (--i" := by
    unfold State.On
    decide
  have misses :
      ((Part.group.rule (.staging environment)).run start).1 = none := by
    decide +kernel
  have result := part_unchanged_or_advanced _ environment .group start startOn
  refine ⟨startOn, ?_⟩
  rcases outcome : (Part.group.rule (.staging environment)).run start with
    ⟨_ | value, finish⟩
  · rw [outcome] at result
    rw [show finish = start from result]
  · simp [outcome] at misses

end Grammar

end LineCalculator
