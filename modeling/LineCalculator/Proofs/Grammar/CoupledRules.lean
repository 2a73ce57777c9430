import LineCalculator.Proofs.Grammar.AtomicRules
import LineCalculator.Proofs.Grammar.Coupling

/-!
# Coupled scopes read alike

The rules of calculations and statements are coupled over coupled scopes. A
rule that enters the grammar again does so behind a token that it has read, so
rules are coupled on longer texts than their entries have to be. Applied to one
scope on both sides this shows that the tied rules never run out of text: an
entry is its rule with the entries themselves in it.

Scopes need not bind the same names to be coupled. Where they do, and note steps
alike, steps and assignments with an operator are coupled for this reason.
-/

namespace LineCalculator

namespace Grammar

namespace Correspondence

variable
  {left : Scope σ}
  {right : Scope τ}
  {both : Correspondence left right}
  {base : σ}
  {bound : Nat}

/-- Both scopes bind the same names and find the same one in corresponding
texts. A step on a name is noted alike, and its values are corresponding
literals from then on. -/
structure SameNames (both : Correspondence left right) : Prop where
  readName : ∀ {text text'}, both.Text text text' →
    Token.Agree both.Text (Token.anyOf id left.names text)
      (Token.anyOf id right.names text')
  bound : ∀ name, name ∈ left.names ↔ name ∈ right.names
  step : ∀ {record record'}, both.Record record record' →
    ∀ {name}, name ∈ left.names → ∀ step : Step,
      both.Record (left.note record name step)
        (right.note record' name step) ∧
      both.Tree (left.note record name step)
        (.literal (step.apply (left.value record name)))
        (.literal (step.apply (right.value record' name)))
  postStep : ∀ record name step,
    both.Tree record (.postStep name step) (.postStep name step)

section

variable
  (reversible : both.Reversible)
  (readable : both.Readable)
include reversible readable

theorem rules_character (expected : Char) :
    both.Rules base bound (fun _ => Eq)
      (token (Token.character expected)) (token (Token.character expected)) :=
  rules_token reversible (Token.consumes_character expected)
    (Token.consumes_character expected) (readable.read (.character expected))

theorem rules_anyOf
    {spelling : α → String}
    {values : List α}
    (fixed : Token.IsFixed (Token.anyOf spelling values)) :
    both.Rules base bound (fun _ => Eq)
      (token (Token.anyOf spelling values))
      (token (Token.anyOf spelling values)) :=
  rules_token reversible (Token.consumes_anyOf spelling values)
    (Token.consumes_anyOf spelling values) (readable.read fixed)

theorem rules_identifier :
    both.Rules base bound (fun _ => Eq)
      (token Token.identifier) (token Token.identifier) :=
  rules_token reversible Token.consumes_identifier Token.consumes_identifier
    (readable.read .identifier)

end

namespace SameNames

variable
  (names : both.SameNames)
  (reversible : both.Reversible)
include names reversible

/-- Both find the same known name, as they know the same names. -/
theorem rules_knownName :
    both.Rules base bound (fun _ => Eq) (knownName left) (knownName right) :=
  rules_token reversible (Token.consumes_anyOf id left.names)
    (Token.consumes_anyOf id right.names) names.readName

/-- Both stage the same step in front of a name. -/
theorem rules_stepBefore (readable : both.Readable) :
    both.Rules base bound both.Tree (stepBefore left) (stepBefore right) := by
  refine Rules.attempt reversible (rules_bind reversible
    (rules_anyOf reversible readable .step) ?_)
  rintro middle _ step _ _ rfl
  refine rules_bind reversible (names.rules_knownName reversible) ?_
  rintro later _ name _ gives rfl start start' states _ _
  have bound := mem_names_of_gives_knownName gives
  have bound' := (names.bound name).mp bound
  obtain ⟨record, tree⟩ := names.step states.steps bound step
  have noted := reversible.leftReversible.note bound start.steps step
  have noted' := reversible.rightReversible.note bound' start'.steps step
  exact ⟨⟨states.rest, record⟩, .some tree, ⟨List.suffix_rfl, noted⟩,
    ⟨List.suffix_rfl, noted'⟩⟩

theorem rules_stepAfter (readable : both.Readable) :
    both.Rules base bound both.Tree (stepAfter left) (stepAfter right) := by
  refine Rules.attempt reversible (rules_bind reversible
    (names.rules_knownName reversible) ?_)
  rintro middle _ name _ _ rfl
  refine rules_bind reversible (rules_anyOf reversible readable .step) ?_
  rintro later _ step _ _ rfl
  exact rules_pure reversible fun record _ => names.postStep record name step

/-- Both assign with the same operator when they do for each of the
operators. -/
theorem rules_compoundAssignment
    {entries : Entries σ}
    {entries' : Entries τ}
    {target : String}
    (rules : ∀ operator, both.Rules base bound both.Tree
      (operatorAssignment left entries target operator)
      (operatorAssignment right entries' target operator)) :
    both.Rules base bound both.Tree
      (compoundAssignment left entries target)
      (compoundAssignment right entries' target) := by
  unfold compoundAssignment
  by_cases known : target ∈ left.names
  · rw [if_pos known, if_pos ((names.bound target).mp known)]
    exact rules_firstM reversible rules
  · rw [if_neg known, if_neg fun other => known ((names.bound target).mpr other)]
    exact rules_failure reversible

/-- A correspondence between scopes with the same names is lawful. -/
theorem lawful
    (readable : both.Readable)
    (congruent : both.Congruent) :
    both.Lawful where
  toReversible := reversible
  toReadable := readable
  toCongruent := congruent
  stepBefore _ _ := names.rules_stepBefore reversible readable
  stepAfter _ _ := names.rules_stepAfter reversible readable
  compound := names.rules_compoundAssignment reversible

end SameNames

end Correspondence

namespace Coupling

open Correspondence

variable
  {left : Scope σ}
  {right : Scope τ}
  {coupling : Coupling left right}
  {base : σ}
  {bound : Nat}
  {entries : Entries σ}
  {entries' : Entries τ}

/-- All entries of two grammars are coupled on texts shorter than a bound. -/
structure CoupledEntries
    (coupling : Coupling left right)
    (bound : Nat)
    (entries : Entries σ)
    (entries' : Entries τ) : Prop where
  sum : ∀ {base},
    coupling.Rules base bound coupling.Tree (entries .sum) (entries' .sum)
  factor : ∀ {base},
    coupling.Rules base bound coupling.Tree (entries .factor) (entries' .factor)
  moreTerms : ∀ base start start', coupling.Tree base start start' →
    coupling.Rules base bound coupling.Tree
      (entries (.moreTerms start)) (entries' (.moreTerms start'))
  moreFactors : ∀ base start start', coupling.Tree base start start' →
    coupling.Rules base bound coupling.Tree
      (entries (.moreFactors start)) (entries' (.moreFactors start'))

/-- Trees that correspond under the record at the start correspond as values. -/
theorem rules_tree
    {tree tree' : Expr}
    (trees : coupling.Tree base tree tree') :
    coupling.Rules base bound coupling.Tree (pure tree) (pure tree') :=
  rules_pure coupling.toReversible fun _ grown => coupling.later grown trees

theorem rules_operatorSymbol (operators : List Operator) :
    coupling.Rules base bound (fun _ => Eq)
      (operatorSymbol operators) (operatorSymbol operators) :=
  rules_anyOf coupling.toReversible coupling.toReadable (.operator operators)

theorem rules_var :
    coupling.Rules base bound coupling.Tree
      (Expr.var <$> token Token.identifier)
      (Expr.var <$> token Token.identifier) := by
  refine Rules.map (rules_identifier coupling.toReversible coupling.toReadable) ?_
  rintro record name _ rfl
  exact coupling.var record name

theorem rules_literal :
    coupling.Rules base bound coupling.Tree
      (Expr.literal <$> token Token.number)
      (Expr.literal <$> token Token.number) := by
  have numbers : coupling.Rules base bound
      (fun _ value value' => ∀ record,
        coupling.Tree record (.literal value) (.literal value'))
      (token Token.number) (token Token.number) := by
    refine rules_token coupling.toReversible Token.consumes_number
      Token.consumes_number ?_
    intro text text' texts
    have reads := coupling.read .number texts
    have trees := fun value rest =>
      @coupling.number text text' texts value rest
    generalize Token.number text = found at reads trees ⊢
    generalize Token.number text' = found' at reads ⊢
    cases reads with
    | none => exact .none
    | some same => exact .some ⟨same.1 ▸ trees _ _ rfl, same.2⟩
  exact numbers.map fun record _ _ trees => trees record

theorem rules_endOfText :
    coupling.Rules base bound (fun _ => Eq) endOfText endOfText := by
  intro start start' states _ _
  simp only [endOfText, Rule.run_mk, coupling.atEnd states.rest]
  refine ⟨states, ?_, .refl coupling.leftReversible start,
    .refl coupling.rightReversible start'⟩
  split
  · exact .some rfl
  · exact .none

section

variable (coupled : coupling.CoupledEntries bound entries entries')
include coupled

/-- Behind an opening parenthesis both find related trees, when what they build
from related sums is related. -/
theorem rules_inner
    {build build' : Expr → Expr}
    (builds : ∀ {record inner inner'}, coupling.Tree record inner inner' →
      coupling.Tree record (build inner) (build' inner')) :
    coupling.Rules base bound coupling.Tree
      (do
        let inner ← entries .sum
        token (Token.character ')')
        pure (build inner))
      (do
        let inner ← entries' .sum
        token (Token.character ')')
        pure (build' inner)) := by
  have reversible := coupling.toReversible
  refine rules_bind reversible coupled.sum ?_
  intro _ _ inner inner' _ inners
  refine rules_bind reversible
    (rules_character reversible coupling.toReadable ')') ?_
  intro _ grown _ _ _ _
  exact rules_tree (builds (coupling.later grown inners))

theorem rules_group :
    coupling.Rules base (bound + 1) coupling.Tree
      (group left entries) (group right entries') := by
  have reversible := coupling.toReversible
  have advances :=
    (isAtomic_character reversible.leftReversible '(').advances
      reversible.leftReversible
  refine Rules.attempt reversible (rules_bind_advancing reversible
    (rules_character reversible coupling.toReadable '(') advances ?_)
  intro _ _ _ _ _ _
  exact rules_inner coupled fun inners => inners

/-- Both find a call of the same function on related trees. -/
theorem rules_call :
    coupling.Rules base (bound + 1) coupling.Tree
      (Grammar.call left entries) (Grammar.call right entries') := by
  have reversible := coupling.toReversible
  have advances :=
    (isAtomic_token reversible.leftReversible
      (Token.consumes_anyOf MathFunction.name MathFunction.all)).advances
        reversible.leftReversible
  refine Rules.attempt reversible (rules_bind_advancing reversible
    (rules_anyOf reversible coupling.toReadable .function) advances ?_)
  rintro _ _ function _ _ rfl
  refine rules_bind reversible
    (rules_character reversible coupling.toReadable '(') ?_
  intro _ _ _ _ _ _
  exact rules_inner coupled (coupling.call function.name)

theorem rules_function :
    coupling.Rules base (bound + 1) coupling.Tree
      (function left entries) (function right entries') :=
  rules_orElse coupling.toReversible (coupling.stepBefore base (bound + 1))
    (rules_orElse coupling.toReversible (coupling.stepAfter base (bound + 1))
      (rules_call coupled))

theorem rules_operand :
    coupling.Rules base (bound + 1) coupling.Tree
      (operand left entries) (operand right entries') :=
  rules_orElse coupling.toReversible (rules_group coupled)
    (rules_orElse coupling.toReversible rules_var rules_literal)

/-- Both raise related trees to related powers. -/
theorem rules_power
    {start start' : Expr}
    (bases : coupling.Tree base start start') :
    coupling.Rules base (bound + 1) coupling.Tree
      (power left entries start) (power right entries' start') := by
  have reversible := coupling.toReversible
  have advances :=
    (isAtomic_character reversible.leftReversible '^').advances
      reversible.leftReversible
  refine Rules.attempt reversible (rules_bind_advancing reversible
    (rules_character reversible coupling.toReadable '^') advances ?_)
  intro _ grown _ _ _ _
  refine rules_bind reversible coupled.factor ?_
  intro _ grown' exponent exponent' _ exponents
  have base := coupling.later grown' (coupling.later grown bases)
  exact rules_tree (coupling.binary .exponentiation base exponents)

theorem rules_factor :
    coupling.Rules base (bound + 1) coupling.Tree
      (factor left entries) (factor right entries') := by
  refine rules_orElse coupling.toReversible (rules_function coupled)
    (rules_bind coupling.toReversible (rules_operand coupled) ?_)
  intro _ _ base base' _ bases
  exact rules_orElse coupling.toReversible (rules_power coupled bases)
    (rules_tree bases)

end

/-- Both go on behind related trees with the same operator, since the texts
that are left get shorter. -/
theorem rules_more
    {operand : Rule σ Expr}
    {operand' : Rule τ Expr}
    {again : Expr → Rule σ Expr}
    {again' : Expr → Rule τ Expr}
    {start start' : Expr}
    (operators : List Operator)
    (operands : ∀ {base},
      coupling.Rules base bound coupling.Tree operand operand')
    (agains : ∀ base start start', coupling.Tree base start start' →
      coupling.Rules base bound coupling.Tree (again start) (again' start'))
    (starts : coupling.Tree base start start') :
    coupling.Rules base (bound + 1) coupling.Tree
      (more operators operand again start)
      (more operators operand' again' start') := by
  have reversible := coupling.toReversible
  have advances :=
    (isAtomic_operatorSymbol reversible.leftReversible operators).advances
      reversible.leftReversible
  refine rules_bind_of reversible
    (fun found => if found.isSome then bound else bound + 1)
    (Rules.optional (rules_operatorSymbol operators)) ?_ ?_
  · intro state found finish short growing outcome
    rw [Rule.run_optional] at growing outcome
    have shorter := (advances state).2
    have later := growing.suffix.length_le
    simp only [Prod.mk.injEq, Option.some.injEq] at outcome
    obtain ⟨rfl, rfl⟩ := outcome
    split
    · next some =>
        have := shorter some
        omega
    · exact Nat.lt_of_le_of_lt later short
  · intro middle grown found found' _ founds
    have starts := coupling.later grown starts
    cases founds with
    | none => exact rules_tree starts
    | @some operator _ same =>
        subst same
        refine rules_bind reversible operands ?_
        intro _ grown' operand operand' _ trees
        exact agains _ _ _
          (coupling.binary operator (coupling.later grown' starts) trees)

/-- Both find related chains when they find related operands, and related trees
behind an operand. -/
theorem rules_chain
    {operand : Rule σ Expr}
    {operand' : Rule τ Expr}
    {again : Expr → Rule σ Expr}
    {again' : Expr → Rule τ Expr}
    (operators : List Operator)
    (operands : ∀ {base},
      coupling.Rules base (bound + 1) coupling.Tree operand operand')
    (advances : operand.Advances coupling.LeftExtends)
    (agains : ∀ base start start', coupling.Tree base start start' →
      coupling.Rules base bound coupling.Tree (again start) (again' start')) :
    coupling.Rules base (bound + 1) coupling.Tree
      (chain left operators operand again)
      (chain right operators operand' again') := by
  refine Rules.attempt coupling.toReversible
    (rules_bind_advancing coupling.toReversible operands advances ?_)
  intro _ _ first first' _ firsts
  exact (rules_more operators (operands.mono (Nat.le_succ bound)) agains
    firsts).mono (Nat.le_succ bound)

/-- The rules over coupled rules for factors are coupled wherever their entries
are coupled on shorter texts. -/
theorem coupledEntries_rulesOver
    (factor : Entries σ → Rule σ Expr)
    (factor' : Entries τ → Rule τ Expr)
    (factors : ∀ {base}, coupling.Rules base (bound + 1) coupling.Tree
      (factor entries) (factor' entries'))
    (atomic : (factor entries).IsAtomic coupling.LeftExtends)
    (proper : Satisfy entries (Proper coupling.LeftExtends))
    (coupled : coupling.CoupledEntries bound entries entries') :
    coupling.CoupledEntries (bound + 1)
      (rulesOver left factor entries) (rulesOver right factor' entries') := by
  have reversible := coupling.leftReversible
  have productAtomic := isAtomic_product reversible proper atomic
  have products {base : σ} :
      coupling.Rules base (bound + 1) coupling.Tree
        (product left (factor entries) entries)
        (product right (factor' entries') entries') :=
    rules_chain Operator.multiplicative factors (atomic.advances reversible)
      coupled.moreFactors
  exact
    { sum := rules_chain Operator.additive products
        (productAtomic.advances reversible) coupled.moreTerms
      factor := factors
      moreTerms := fun base start start' starts =>
        rules_more Operator.additive (products.mono (Nat.le_succ bound))
          coupled.moreTerms starts
      moreFactors := fun base start start' starts =>
        rules_more Operator.multiplicative (factors.mono (Nat.le_succ bound))
          coupled.moreFactors starts }

end Coupling

end Grammar

end LineCalculator
