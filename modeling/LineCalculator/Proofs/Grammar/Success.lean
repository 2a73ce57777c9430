import LineCalculator.Proofs.Grammar.AtomicRules
import Mathlib.Logic.Basic

/-!
# Successful runs

What it takes for a rule that is built from others to give a value, and the
text that it leaves then.
-/

namespace LineCalculator

namespace Grammar

variable {start finish : State σ}

/-- Two rules in a row give what the second one gives where the first one
leads. -/
theorem bind_eq_some_iff
    {first : Rule σ α}
    {next : α → Rule σ β}
    {value : β} :
    (first >>= next).run start = (some value, finish) ↔
      ∃ between middle, first.run start = (some between, middle) ∧
        (next between).run middle = (some value, finish) := by
  rw [Rule.run_bind]
  rcases first.run start with ⟨_ | between, middle⟩ <;> simp

theorem map_eq_some_iff
    {rule : Rule σ α}
    {change : α → β}
    {value : β} :
    (change <$> rule).run start = (some value, finish) ↔
      ∃ before, rule.run start = (some before, finish) ∧
        change before = value := by
  rw [Rule.run_map]
  rcases rule.run start with ⟨_ | before, middle⟩ <;> simp [and_comm]

theorem token_eq_some_iff
    {reader : Token.Reader α}
    {value : α} :
    (token reader).run start = (some value, finish) ↔
      reader start.rest = some (value, finish.rest) ∧
        finish.steps = start.steps := by
  obtain ⟨finishRest, finishSteps⟩ := finish
  rw [run_token]
  rcases reader start.rest with _ | ⟨found, rest⟩
  · simp
  · simp [and_assoc, eq_comm]

/-- An attempt gives what its rule gives, as only failures go back. -/
theorem attempt_eq_some_iff
    {scope : Scope σ}
    {rule : Rule σ α}
    {value : α} :
    (attempt scope rule).run start = (some value, finish) ↔
      rule.run start = (some value, finish) := by
  rw [run_attempt]
  rcases rule.run start with ⟨_ | found, middle⟩ <;> simp

theorem endOfText_eq_some_iff :
    endOfText.run start = (some (), finish) ↔
      Token.atEnd start.rest = true ∧ finish = start := by
  rcases atEnd : Token.atEnd start.rest <;>
    simp [endOfText, atEnd, @eq_comm _ start finish]

/-- An alternative to an atomic rule gives a value only where the atomic rule
fails, and then from the same state. -/
theorem Rule.IsAtomic.orElse_eq_some
    {Extends : σ → σ → Prop}
    {first second : Rule σ α}
    (atomic : first.IsAtomic Extends)
    {value : α}
    (outcome : (first <|> second).run start = (some value, finish)) :
    first.run start = (some value, finish) ∨
      second.run start = (some value, finish) := by
  have unchanged := atomic start
  rw [Rule.run_orElse] at outcome
  rcases result : first.run start with ⟨_ | found, middle⟩
  · rw [result] at outcome unchanged
    rw [show middle = start from unchanged] at outcome
    exact .inr outcome
  · rw [result] at outcome
    exact .inl outcome

/-- What the first of several atomic rules gives, one of them gives from the
same state. -/
theorem mem_of_firstM_eq_some
    {Extends : σ → σ → Prop}
    {rule : α → Rule σ β}
    {values : List α}
    (atomic : ∀ value, (rule value).IsAtomic Extends)
    {result : β}
    (outcome : (values.firstM rule).run start = (some result, finish)) :
    ∃ value ∈ values, (rule value).run start = (some result, finish) := by
  induction values with
  | nil => simp [List.firstM] at outcome
  | cons value values valuesHypothesis =>
      rcases (atomic value).orElse_eq_some outcome with here | later
      · exact ⟨value, List.mem_cons_self, here⟩
      · obtain ⟨other, member, found⟩ := valuesHypothesis later
        exact ⟨other, List.mem_cons_of_mem value member, found⟩

/-- The rest of an assignment is a symbol and the value behind it. -/
theorem assigned_eq_some_iff
    {scope : Scope σ}
    {entries : Entries σ}
    {reader : Token.Reader Unit}
    {build : Expr → Expr}
    {value : Expr} :
    (attempt scope (do
      token reader
      let assigned ← completeSum scope entries
      pure (build assigned))).run start = (some value, finish) ↔
      ∃ afterSymbol assigned,
        (token reader).run start = (some (), afterSymbol) ∧
        (completeSum scope entries).run afterSymbol = (some assigned, finish) ∧
        build assigned = value := by
  rw [attempt_eq_some_iff]
  simp only [bind_eq_some_iff, Rule.run_pure, Prod.mk.injEq, Option.some.injEq]
  constructor
  · rintro ⟨_, afterSymbol, symbolRead, assigned, _, sumRead, built, rfl⟩
    exact ⟨afterSymbol, assigned, symbolRead, sumRead, built⟩
  · rintro ⟨afterSymbol, assigned, symbolRead, sumRead, built⟩
    exact ⟨(), afterSymbol, symbolRead, assigned, finish, sumRead, built, rfl⟩

/-- Behind its name an assignment goes on without an operator or, when the name
is bound, with one. -/
theorem exists_parts_of_assignment
    {scope : Scope σ}
    {Extends : σ → σ → Prop}
    {entries : Entries σ}
    (reversible : scope.Reversible Extends)
    (proper : Satisfy entries (Proper Extends))
    {value : Expr}
    (outcome : (assignment scope entries).run start = (some value, finish)) :
    ∃ target afterTarget,
      (token Token.identifier).run start = (some target, afterTarget) ∧
      ((plainAssignment scope entries target).run afterTarget =
          (some value, finish) ∨
        target ∈ scope.names ∧ ∃ operator,
          (operatorAssignment scope entries target operator).run afterTarget =
            (some value, finish)) := by
  rw [assignment, attempt_eq_some_iff] at outcome
  obtain ⟨target, afterTarget, targetRead, outcome⟩ :=
    bind_eq_some_iff.mp outcome
  refine ⟨target, afterTarget, targetRead, ?_⟩
  rcases (isAtomic_plainAssignment reversible proper target).orElse_eq_some
    outcome with plain | compound
  · exact .inl plain
  · unfold compoundAssignment at compound
    split at compound
    · next bound =>
        obtain ⟨operator, -, found⟩ := mem_of_firstM_eq_some
          (isAtomic_operatorAssignment reversible proper target) compound
        exact .inr ⟨bound, operator, found⟩
    · simp at compound

/-! ## Finding and missing a part -/

/-- A rule has a value and leaves a given text. -/
def Rule.Finds
    (rule : Rule σ α)
    (start : State σ)
    (rest : List Char) : Prop :=
  ∃ value steps, rule.run start = (some value, ⟨rest, steps⟩)

/-- A rule has no value. -/
def Rule.Misses (rule : Rule σ α) (start : State σ) : Prop :=
  ∀ value finish, rule.run start ≠ (some value, finish)

variable
  {scope : Scope σ}
  {Extends : σ → σ → Prop}
  {first second rule : Rule σ α}
  {next : α → Rule σ β}
  {middle rest : List Char}

/-- What a sequence leaves is left by its last rule, from some value of the first
rule and some record. -/
theorem Rule.Finds.exists_bind
    {property : List Char → Prop}
    (found : first.Finds start middle)
    (later : ∀ value steps, ∃ rest,
      (next value).Finds ⟨middle, steps⟩ rest ∧ property rest) :
    ∃ rest, (first >>= next).Finds start rest ∧ property rest := by
  obtain ⟨value, steps, outcome⟩ := found
  obtain ⟨rest, ⟨result, finish, last⟩, holds⟩ := later value steps
  exact ⟨rest, ⟨result, finish,
    bind_eq_some_iff.mpr ⟨value, _, outcome, last⟩⟩, holds⟩

/-- Two rules in a row are found when the second one is, whatever the first one
gave. -/
theorem Rule.Finds.bind
    (found : first.Finds start middle)
    (later : ∀ value steps, (next value).Finds ⟨middle, steps⟩ rest) :
    (first >>= next).Finds start rest := by
  obtain ⟨after, finds, rfl⟩ := found.exists_bind
    fun value steps => ⟨rest, later value steps, rfl⟩
  exact finds

theorem Rule.Finds.map
    (found : rule.Finds start rest)
    (change : α → β) :
    (change <$> rule).Finds start rest := by
  obtain ⟨value, steps, outcome⟩ := found
  exact ⟨change value, steps, map_eq_some_iff.mpr ⟨value, outcome, rfl⟩⟩

theorem Rule.Finds.attempt (found : rule.Finds start rest) :
    (attempt scope rule).Finds start rest := by
  obtain ⟨value, steps, outcome⟩ := found
  exact ⟨value, steps, attempt_eq_some_iff.mpr outcome⟩

/-- A choice is found when its first rule is. -/
theorem Rule.Finds.orElse (found : first.Finds start rest) :
    (first <|> second).Finds start rest := by
  obtain ⟨value, steps, outcome⟩ := found
  refine ⟨value, steps, ?_⟩
  rw [Rule.run_orElse, outcome]

theorem finds_token
    {reader : Token.Reader α}
    {value : α}
    (read : reader start.rest = some (value, rest)) :
    (token reader).Finds start rest :=
  ⟨value, start.steps, token_eq_some_iff.mpr ⟨read, rfl⟩⟩

theorem Rule.Finds.of_token
    {reader : Token.Reader β}
    {next : β → Rule σ α}
    {value : β}
    (read : reader start.rest = some (value, middle))
    (found : (next value).Finds ⟨middle, start.steps⟩ rest) :
    (token reader >>= next).Finds start rest := by
  obtain ⟨result, steps, outcome⟩ := found
  exact ⟨result, steps, bind_eq_some_iff.mpr
    ⟨value, ⟨middle, start.steps⟩, token_eq_some_iff.mpr ⟨read, rfl⟩, outcome⟩⟩

/-- What is left behind a rule that is found is an end of the text. -/
theorem Rule.Finds.suffix
    (found : rule.Finds start rest)
    (grows : rule.Grows Extends) :
    rest <:+ start.rest := by
  obtain ⟨value, steps, outcome⟩ := found
  have growing := grows start
  rw [outcome] at growing
  exact growing.suffix

/-- An atomic rule that has no value changes nothing. -/
theorem Rule.IsAtomic.run_eq
    (atomic : rule.IsAtomic Extends)
    (misses : rule.Misses start) :
    rule.run start = (none, start) := by
  have unchanged := atomic start
  rcases outcome : rule.run start with ⟨_ | value, finish⟩
  · rw [outcome] at unchanged
    rw [show finish = start from unchanged]
  · exact absurd outcome (misses value finish)

theorem Rule.orElse_eq_some_of_first
    {value : α}
    (outcome : first.run start = (some value, finish)) :
    (first <|> second).run start = (some value, finish) := by
  rw [Rule.run_orElse, outcome]

/-- The alternative to an atomic rule that has no value gives what it gives from
the same state. -/
theorem Rule.IsAtomic.run_orElse_of_misses
    (atomic : first.IsAtomic Extends)
    (misses : first.Misses start) :
    (first <|> second).run start = second.run start := by
  rw [Rule.run_orElse, atomic.run_eq misses]

/-- A choice behind an atomic rule gives what that rule gives, or what the
other one gives when it misses. -/
theorem Rule.IsAtomic.orElse_eq_some_iff
    (atomic : first.IsAtomic Extends)
    {value : α} :
    (first <|> second).run start = (some value, finish) ↔
      first.run start = (some value, finish) ∨
        first.Misses start ∧ second.run start = (some value, finish) := by
  by_cases misses : first.Misses start
  · rw [atomic.run_orElse_of_misses misses]
    exact ⟨fun outcome => .inr ⟨misses, outcome⟩,
      fun either => either.elim (fun here => absurd here (misses value finish))
        And.right⟩
  · refine ⟨fun outcome => .inl ?_, fun either => either.elim
      Rule.orElse_eq_some_of_first fun later => absurd later.1 misses⟩
    simp only [Rule.Misses, not_forall, not_not] at misses
    obtain ⟨found, middle, here⟩ := misses
    rw [← outcome, Rule.orElse_eq_some_of_first here, here]

/-- A choice behind an atomic rule is missed only when both rules are. -/
theorem Rule.IsAtomic.misses_of_orElse
    (atomic : first.IsAtomic Extends)
    (misses : (first <|> second).Misses start) :
    first.Misses start ∧ second.Misses start := by
  have firstMisses : first.Misses start := fun value finish outcome =>
    misses value finish (Rule.orElse_eq_some_of_first outcome)
  refine ⟨firstMisses, fun value finish outcome => misses value finish ?_⟩
  rw [atomic.run_orElse_of_misses firstMisses, outcome]

/-- The alternative to an atomic rule that has no value is tried from the same
state. -/
theorem Rule.IsAtomic.orElse_finds
    (atomic : first.IsAtomic Extends)
    (misses : first.Misses start)
    (found : second.Finds start rest) :
    (first <|> second).Finds start rest := by
  obtain ⟨value, steps, outcome⟩ := found
  refine ⟨value, steps, ?_⟩
  rw [Rule.run_orElse, atomic.run_eq misses]
  exact outcome

/-- Of two alternatives, the first one atomic, one is found when the second one
can be found. -/
theorem Rule.IsAtomic.exists_orElse_finds
    (atomic : first.IsAtomic Extends)
    (found : second.Finds start rest) :
    ∃ after, (first <|> second).Finds start after := by
  by_cases misses : first.Misses start
  · exact ⟨rest, atomic.orElse_finds misses found⟩
  · simp only [Rule.Misses, not_forall, not_not] at misses
    obtain ⟨value, finish, outcome⟩ := misses
    exact ⟨finish.rest, .orElse ⟨value, finish.steps, outcome⟩⟩

theorem Rule.Misses.attempt (misses : rule.Misses start) :
    (attempt scope rule).Misses start :=
  fun value finish outcome =>
    misses value finish (attempt_eq_some_iff.mp outcome)

/-- Two rules in a row are missed when the second one is wherever the first one
leads. -/
theorem misses_bind
    (misses : ∀ value middle, first.run start = (some value, middle) →
      (next value).Misses middle) :
    (first >>= next).Misses start := by
  intro value finish outcome
  obtain ⟨between, middle, firstOutcome, later⟩ := bind_eq_some_iff.mp outcome
  exact misses between middle firstOutcome value finish later

theorem Rule.Misses.bind (misses : first.Misses start) :
    (first >>= next).Misses start :=
  misses_bind fun value middle outcome => absurd outcome (misses value middle)

theorem Rule.IsAtomic.orElse_misses
    (atomic : first.IsAtomic Extends)
    (firstMisses : first.Misses start)
    (secondMisses : second.Misses start) :
    (first <|> second).Misses start := by
  intro value finish outcome
  rcases atomic.orElse_eq_some outcome with here | later
  · exact firstMisses value finish here
  · exact secondMisses value finish later

theorem Rule.Misses.map
    (misses : rule.Misses start)
    {change : α → β} :
    (change <$> rule).Misses start := by
  intro value finish outcome
  obtain ⟨before, here, -⟩ := map_eq_some_iff.mp outcome
  exact misses before finish here

theorem misses_token
    {reader : Token.Reader α}
    (read : reader start.rest = none) :
    (token reader).Misses start := by
  intro value finish outcome
  simp [token_eq_some_iff, read] at outcome

/-- One of several atomic alternatives is found when one of them can be. -/
theorem exists_firstM_finds
    {rule : β → Rule σ α}
    {value : β}
    {values : List β}
    (atomic : ∀ value, (rule value).IsAtomic Extends)
    (member : value ∈ values)
    (found : (rule value).Finds start rest) :
    ∃ after, (values.firstM rule).Finds start after := by
  induction values with
  | nil => simp at member
  | cons head values valuesHypothesis =>
      rcases List.mem_cons.mp member with rfl | later
      · exact ⟨rest, found.orElse⟩
      · obtain ⟨after, laterFound⟩ := valuesHypothesis later
        exact (atomic head).exists_orElse_finds laterFound

/-- Of several atomic alternatives the only one that does not miss is found. -/
theorem firstM_eq_some
    {rule : β → Rule σ α}
    {value : β}
    {values : List β}
    {result : α}
    (atomic : ∀ value, (rule value).IsAtomic Extends)
    (member : value ∈ values)
    (others : ∀ other, other ≠ value → (rule other).Misses start)
    (outcome : (rule value).run start = (some result, finish)) :
    (values.firstM rule).run start = (some result, finish) := by
  induction values with
  | nil => simp at member
  | cons head values valuesHypothesis =>
      rcases List.mem_cons.mp member with rfl | later
      · exact Rule.orElse_eq_some_of_first outcome
      · by_cases same : head = value
        · exact Rule.orElse_eq_some_of_first (same ▸ outcome)
        · exact (atomic head).orElse_eq_some_iff.mpr
            (.inr ⟨others head same, valuesHypothesis later⟩)

/-! ## Reading a given value -/

/-- From one text a rule does what another rule does from another text, whatever
steps were noted before. -/
def Rule.LeadsTo
    (first : Rule σ α)
    (text : List Char)
    (second : Rule σ α)
    (rest : List Char) : Prop :=
  ∀ steps, first.run ⟨text, steps⟩ = second.run ⟨rest, steps⟩

/-- A rule has a given value, leaves a given text and notes no step. -/
def Rule.Reads
    (rule : Rule σ α)
    (text : List Char)
    (value : α)
    (rest : List Char) : Prop :=
  rule.LeadsTo text (pure value) rest

section

variable
  {first second rule : Rule σ α}
  {text : List Char}
  {value : α}

theorem Rule.Reads.finds
    (reads : rule.Reads text value rest)
    (steps : σ) :
    rule.Finds ⟨text, steps⟩ rest :=
  ⟨value, steps, reads steps⟩

/-- What is found where a rule leads is found by the rule. -/
theorem Rule.LeadsTo.finds
    {steps : σ}
    (leads : first.LeadsTo text second middle)
    (found : second.Finds ⟨middle, steps⟩ rest) :
    first.Finds ⟨text, steps⟩ rest := by
  obtain ⟨value, finish, outcome⟩ := found
  exact ⟨value, finish, (leads steps).trans outcome⟩

/-- What is missed where a rule leads is missed by the rule. -/
theorem Rule.LeadsTo.misses
    {steps : σ}
    (leads : first.LeadsTo text second rest)
    (misses : second.Misses ⟨rest, steps⟩) :
    first.Misses ⟨text, steps⟩ :=
  fun value finish outcome =>
    misses value finish ((leads steps).symm.trans outcome)

theorem Rule.LeadsTo.trans
    {third : Rule σ α}
    (leads : first.LeadsTo text second middle)
    (later : second.LeadsTo middle third rest) :
    first.LeadsTo text third rest :=
  fun steps => (leads steps).trans (later steps)

theorem reads_token
    {reader : Token.Reader α}
    (read : reader text = some (value, rest)) :
    (token reader : Rule σ α).Reads text value rest :=
  fun _ => token_eq_some_iff.mpr ⟨read, rfl⟩

/-- A sequence goes on behind what its first rule reads. -/
theorem Rule.Reads.bind
    {next : α → Rule σ β}
    (reads : first.Reads text value rest) :
    (first >>= next).LeadsTo text (next value) rest := by
  intro steps
  rw [Rule.run_bind, reads steps]
  rfl

theorem Rule.Reads.map
    (reads : rule.Reads text value rest)
    (change : α → β) :
    (change <$> rule).Reads text (change value) rest := by
  intro steps
  rw [Rule.run_map, reads steps]
  rfl

theorem Rule.Reads.attempt (reads : rule.Reads text value rest) :
    (attempt scope rule).Reads text value rest :=
  fun steps => attempt_eq_some_iff.mpr (reads steps)

/-- A choice reads what its first rule reads. -/
theorem Rule.Reads.orElse (reads : first.Reads text value rest) :
    (first <|> second).Reads text value rest := by
  intro steps
  rw [Rule.run_orElse, reads steps]
  rfl

theorem Rule.IsAtomic.orElse_leadsTo
    (atomic : first.IsAtomic Extends)
    (misses : ∀ steps, first.Misses ⟨text, steps⟩) :
    (first <|> second).LeadsTo text second text := by
  intro steps
  rw [Rule.run_orElse, atomic.run_eq (misses steps)]

end

end Grammar

end LineCalculator
