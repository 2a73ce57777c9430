import LineCalculator.Proofs.Grammar.CoupledStatements
import LineCalculator.Proofs.Grammar.OrderlyReading

/-!
# Reading to a bounded depth

The rules are entered again in shorter texts only, so what they do on a text
does not depend on entries that are nested more deeply than the text is long.
Unrolled often enough, the rules read as the tied rules do, whatever stands in
for the entries beyond. In the same way the factors that are nested to a depth
greater than the number of bytes of a statement are never read.
-/

namespace LineCalculator

namespace Grammar

/-- The rules, with the rules in place of their entries as often as given, and
other entries beyond. No entry is guarded. -/
def unrolled (scope : Scope σ) (beyond : Entries σ) : Nat → Entries σ
  | 0 => beyond
  | depth + 1 => rulesOver scope (factor scope) (unrolled scope beyond depth)

/-- Factors that are nested at most as deeply as given, and another rule for
those that are nested more deeply. -/
def factorWithin (scope : Scope σ) (beyond : Rule σ Expr) : Nat → Rule σ Expr
  | 0 => beyond
  | depth + 1 =>
      factor scope (close (rulesOver scope fun _ => factorWithin scope beyond depth))

/-- Calculations in which factors are nested at most as deeply as given. -/
def calculationsWithin
    (scope : Scope σ)
    (beyond : Rule σ Expr)
    (depth : Nat) : Entries σ :=
  close (rulesOver scope fun _ => factorWithin scope beyond depth)

/-- The rule that reads a part of a statement in which factors are nested at
most as deeply as given. -/
def Part.ruleWithin
    (scope : Scope σ)
    (beyond : Rule σ Expr)
    (depth : Nat)
    (part : Part) : Rule σ Expr :=
  part.ruleOver scope (factorWithin scope beyond depth)
    (calculationsWithin scope beyond depth)

variable
  {scope : Scope σ}
  {Extends : σ → σ → Prop}
  {bound depth : Nat}
  {rule rule' : Rule σ Expr}
  {entries entries' : Entries σ}

section

variable (reversible : scope.Reversible Extends)
include reversible

/-- Rules that are unrolled more often than a text is long read the text as the
tied rules do. -/
theorem agreeBelow_unrolled (beyond : Entries σ) :
    AgreeBelow depth (calculations scope) (unrolled scope beyond depth) := by
  have proper := proper_calculations reversible
  induction depth with
  | zero => exact fun _ _ short => absurd short (Nat.not_lt_zero _)
  | succ depth depthHypothesis =>
      rw [calculations_eq reversible]
      exact AgreeBelow.rulesOver reversible proper
        (isAtomic_factor reversible proper)
        (depthHypothesis.factor reversible proper) depthHypothesis

/-- Tied rules over factors that agree with those of the calculations agree with
the calculations. -/
theorem agreeBelow_close
    (factors : (factor scope (calculations scope)).AgreesBelow bound rule) :
    AgreeBelow bound (calculations scope)
      (close (rulesOver scope fun _ => rule)) := by
  have proper := proper_calculations reversible
  intro entry start short
  induction length : start.rest.length using Nat.strongRecOn
    generalizing entry start with
  | ind length' lengthHypothesis =>
      let taken := guarded start (close (rulesOver scope fun _ => rule))
      have below : AgreeBelow start.rest.length (calculations scope) taken := by
        intro next state shorter
        rw [agreeBelow_guarded start _ next state shorter]
        exact lengthHypothesis _ (length ▸ shorter) next state
          (Nat.lt_trans shorter short) rfl
      have rules :
          AgreeBelow (start.rest.length + 1)
            (rulesOver scope (factor scope) (calculations scope))
            (rulesOver scope (fun _ => rule) taken) :=
        .rulesOver reversible proper (isAtomic_factor reversible proper)
          (factors.mono short) below
      rw [run_close_guarded, calculations_eq reversible]
      exact rules entry start (Nat.lt_succ_self _)

/-- Factors that are nested more deeply than a text is long are not read. -/
theorem agreesBelow_factorWithin (beyond : Rule σ Expr) :
    (factor scope (calculations scope)).AgreesBelow depth
      (factorWithin scope beyond depth) := by
  induction depth with
  | zero => exact fun _ short => absurd short (Nat.not_lt_zero _)
  | succ depth depthHypothesis =>
      exact (agreeBelow_close reversible depthHypothesis).factor reversible
        (proper_calculations reversible)

/-- Rules that are unrolled to a depth are the rules on texts below that
depth. -/
theorem agreeBelow_calculationsWithin (beyond : Rule σ Expr) :
    AgreeBelow depth (calculations scope)
      (calculationsWithin scope beyond depth) :=
  agreeBelow_close reversible (agreesBelow_factorWithin reversible beyond)

/-- The parts of a statement agree over factors and entries that agree. -/
theorem Part.agreesBelow_ruleOver
    (part : Part)
    (proper : Satisfy entries (Proper Extends))
    (atomic : rule.IsAtomic Extends)
    (factors : rule.AgreesBelow (bound + 1) rule')
    (agree : AgreeBelow (bound + 1) entries entries') :
    (part.ruleOver scope rule entries).AgreesBelow (bound + 1)
      (part.ruleOver scope rule' entries') := by
  have coupled := agree.coupledEntries reversible proper
  have shorter : AgreeBelow bound entries entries' :=
    fun entry => (agree entry).mono (Nat.le_succ bound)
  have coupledShorter := shorter.coupledEntries reversible proper
  have factors {base : σ} :
      (Coupling.diagonal reversible).Rules base (bound + 1) (fun _ => Eq)
        rule rule' :=
    Coupling.rules_diagonal (atomic.grows reversible) factors
  have products {base : σ} :
      (Coupling.diagonal reversible).Rules base (bound + 1) (fun _ => Eq)
        (Grammar.product scope rule entries)
        (Grammar.product scope rule' entries') :=
    Coupling.rules_chain _ factors (atomic.advances reversible)
      coupledShorter.moreFactors
  have productAdvances :=
    (isAtomic_product reversible proper atomic).advances reversible
  cases part with
  | assignment =>
      exact agreesBelow_of_rules reversible (Coupling.rules_assignment coupled)
  | completeSum =>
      exact agreesBelow_of_rules reversible (Coupling.rules_completeSum coupled)
  | sum =>
      exact agreesBelow_of_rules reversible
        (Coupling.rules_chain _ products productAdvances coupledShorter.moreTerms)
  | product => exact agreesBelow_of_rules reversible products
  | factor => exact agreesBelow_of_rules reversible factors
  | operand =>
      exact agreesBelow_of_rules reversible
        (Coupling.rules_operand coupledShorter)
  | group =>
      exact agreesBelow_of_rules reversible (Coupling.rules_group coupledShorter)
  | function =>
      exact agreesBelow_of_rules reversible
        (Coupling.rules_function coupledShorter)
  | stepBefore => exact fun _ _ => rfl
  | stepAfter => exact fun _ _ => rfl
  | call =>
      exact agreesBelow_of_rules reversible (Coupling.rules_call coupledShorter)

/-- A part that is unrolled to a depth is the part on texts below that
depth. -/
theorem Part.agreesBelow_ruleWithin
    (part : Part)
    (beyond : Rule σ Expr) :
    (part.rule scope).AgreesBelow (depth + 1)
      (part.ruleWithin scope beyond (depth + 1)) := by
  have proper := proper_calculations reversible
  exact part.agreesBelow_ruleOver reversible proper
    (isAtomic_factor reversible proper)
    (agreesBelow_factorWithin reversible beyond)
    (agreeBelow_calculationsWithin reversible beyond)

/-- Statements over entries that agree on short texts agree on short texts. -/
theorem agreesBelow_statement
    (proper : Satisfy entries (Proper Extends))
    (agree : AgreeBelow bound entries entries') :
    (statement scope entries).AgreesBelow bound (statement scope entries') :=
  agreesBelow_of_rules reversible
    (Coupling.rules_statement (agree.coupledEntries reversible proper))

end

/-- A rule reads on from a state of a text: it makes orderly visits, and what it
gives does not depend on what is read where factors are nested more deeply than
given. -/
structure ReadsOn
    (text : String)
    (depth : Nat)
    (start : State σ)
    (rule : Rule σ Expr)
    (watched : Rule (Journal σ) Expr)
    (within : Rule σ Expr → Nat → Rule σ Expr) : Prop where
  watches : rule.run start =
    ((watched.run start.watched).1, (watched.run start.watched).2.unwatched)
  visits : OrderlyVisits text (watched.run start.watched).2.steps.visits
  within : ∀ beyond, (within beyond depth).run start = rule.run start

/-- A watched rule that records its entries reads on, whatever stands at the
bottom of the unrolled one. -/
theorem readsOn_of_records
    {text : String}
    {start : State σ}
    {watched : Rule (Journal σ) Expr}
    {within : Rule σ Expr → Nat → Rule σ Expr}
    (startOn : start.On text)
    (watches : Watches watched rule)
    (records : watched.Records fun start => start.steps.path = [])
    (agrees : ∀ beyond, (within beyond depth).run start = rule.run start) :
    ReadsOn text depth start rule watched within := by
  obtain ⟨added, visits, noted⟩ := (records start.watched rfl).visits
  refine ⟨watches start.watched, ?_, agrees⟩
  rw [visits]
  exact orderlyVisits_of_noted startOn rfl noted

end Grammar

namespace Statement

open Grammar

/-- Read a statement in which factors are nested at most as deeply as given. -/
def parseWithin?
    (beyond : Rule (List StagedStep) Expr)
    (depth : Nat)
    (text : String)
    (environment : Environment) : Option Statement :=
  let scope := Scope.staging environment
  ofResult? ((statement scope (calculationsWithin scope beyond depth)).run
    ⟨text.toList, []⟩)

/-- Reading ends because text is taken. From every state of a text, each part of
a statement and the whole statement make visits that are further on wherever the
grammar is opened again, with no more factors nested than there are bytes and
one more. Neither unrolled rules nor rules for nested factors beyond that depth
change what is read. -/
theorem reading_ends_by_consumption
    {text : String}
    (environment : Environment)
    {start : State (List StagedStep)}
    {depth : Nat}
    (startOn : start.On text)
    (deep : text.utf8ByteSize < depth) :
    let scope := Scope.staging environment
    (∀ part : Part,
      ReadsOn text depth start (part.rule scope) (part.watchedRule scope)
        fun beyond depth => part.ruleWithin scope beyond depth) ∧
    ReadsOn text depth start
      (statement scope (calculations scope)) (watchedStatement scope)
      (fun beyond depth =>
        statement scope (calculationsWithin scope beyond depth)) ∧
    (∀ beyond entry,
      (unrolled scope beyond depth entry).run start =
        (calculations scope entry).run start) ∧
    ∀ beyond, parseWithin? beyond depth text environment =
      parse? text environment := by
  intro scope
  have reversible := reversible_staging environment
  have proper := proper_calculations reversible
  have textShort : text.toList.length < depth :=
    Nat.lt_of_le_of_lt (length_le_byteSize _) (byteSize_toList text ▸ deep)
  have short : start.rest.length < depth :=
    Nat.lt_of_le_of_lt (State.on_iff_suffix.mp startOn).length_le textShort
  have statements (beyond : Rule (List StagedStep) Expr) :
      (statement scope (calculations scope)).AgreesBelow depth
        (statement scope (calculationsWithin scope beyond depth)) :=
    agreesBelow_statement reversible proper
      (agreeBelow_calculationsWithin reversible beyond)
  refine ⟨fun part => ?_, ?_, fun beyond entry => ?_, fun beyond => ?_⟩
  · obtain ⟨bound, rfl⟩ := Nat.exists_eq_add_one_of_ne_zero
      (Nat.ne_of_gt (Nat.zero_lt_of_lt deep))
    exact readsOn_of_records startOn part.watches_rule
      (part.records_watchedRule reversible) fun beyond =>
        (part.agreesBelow_ruleWithin reversible beyond start short).symm
  · exact readsOn_of_records startOn watches_statement
      (records_watchedStatement reversible) fun beyond =>
        (statements beyond start short).symm
  · exact (agreeBelow_unrolled reversible beyond entry start short).symm
  · have same := statements beyond ⟨text.toList, []⟩ textShort
    exact congrArg ofResult? same.symm

/-- Four open parentheses are read to the depth of five factors, which is as
deep as a text of four bytes allows. -/
theorem reading_ends_by_consumption_in_open_parentheses :
    let text := "(((("
    let environment : Environment := ⟨[]⟩
    let scope := Scope.staging environment
    let start : State (List StagedStep) := ⟨text.toList, []⟩
    start.On text ∧ text.utf8ByteSize < 5 ∧
      ReadsOn text 5 start (Part.factor.rule scope)
        (Part.factor.watchedRule scope)
        (fun beyond depth => Part.factor.ruleWithin scope beyond depth) ∧
      (((Part.factor.watchedRule scope).run start.watched).2.steps.visits.any
        fun path => factorDepth path = 5) = true ∧
      ∀ beyond, parseWithin? beyond 5 text environment =
        parse? text environment := by
  intro text environment scope start
  have startOn : start.On text := by
    unfold State.On
    decide
  have deep : text.utf8ByteSize < 5 := by decide
  obtain ⟨parts, -, -, parses⟩ :=
    reading_ends_by_consumption environment startOn deep
  refine ⟨startOn, deep, parts .factor, ?_, parses⟩
  decide +kernel

end Statement

end LineCalculator
