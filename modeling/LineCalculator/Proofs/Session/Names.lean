import LineCalculator.Proofs.Expr.BoundNames
import LineCalculator.Proofs.Session.Evaluation
import LineCalculator.Session.Log

/-!
# Names of a session

The names of a session are distinct identifiers, and new ones come behind the
old ones. A statement that is read binds nothing, and evaluating a tree binds at
most the target at its root, also when the tree was read much earlier: its steps
are on names that were bound then, and a bound name stays bound.
-/

namespace LineCalculator

/-- The names of an environment are distinct identifiers. -/
structure Environment.WellNamed (environment : Environment) : Prop where
  distinct : environment.Distinct
  identifiers : ∀ name ∈ environment.names, Token.IsIdentifier name.toList

namespace Session

/-- The session after something binds the names before it and at most one more,
which then is the given target. -/
def Binds (before after : Session) (target? : Option String) : Prop :=
  ∃ added, List.Sublist added target?.toList ∧
    after.environment.names = before.environment.names ++ added

/-- The target of the tree that a text is read as. -/
def target? (session : Session) (text : String) : Option String :=
  (session.parse text).1.bind Expr.target?

/-- The session in which a number of the statements that wait have been
evaluated, while all of them are. -/
def afterFirst (session : Session) (count : Nat) : Session :=
  ({ session with backlog := [] }.evaluateEach (session.backlog.take count)).2

variable {before after session : Session} {text : String} {tree : Expr}

/-- Binding at most one name keeps the names in front. -/
theorem Binds.isPrefix
    {target? : Option String}
    (binds : before.Binds after target?) :
    before.environment.names <+: after.environment.names := by
  obtain ⟨added, -, names⟩ := binds
  exact ⟨added, names.symm⟩

/-- No name is bound exactly when the names stay. -/
theorem binds_none_iff :
    before.Binds after none ↔
      after.environment.names = before.environment.names := by
  simp [Binds]

/-- Names stay distinct identifiers when the target is an identifier. -/
theorem Binds.wellNamed
    {target? : Option String}
    (binds : before.Binds after target?)
    (wellNamed : before.environment.WellNamed)
    (distinct : after.environment.Distinct)
    (isIdentifier : ∀ target ∈ target?, Token.IsIdentifier target.toList) :
    after.environment.WellNamed := by
  refine ⟨distinct, ?_⟩
  obtain ⟨added, sublist, names⟩ := binds
  intro name member
  rw [names] at member
  rcases List.mem_append.mp member with earlier | last
  · exact wellNamed.identifiers name earlier
  · exact isIdentifier name (Option.mem_toList.mp (sublist.subset last))

/-- A tree that is read is a statement on the bound names. -/
theorem isStatement_of_parse
    (parsed : tree ∈ (session.parse text).1) :
    tree.IsStatement session.environment.names := by
  simp only [parse] at parsed
  split at parsed
  · simp at parsed
  · next statement found =>
      simp only [Option.mem_some_iff] at parsed
      exact parsed ▸ Statement.isStatement_root found

/-- Reading a statement binds no name. -/
theorem names_parse (session : Session) (text : String) :
    (session.parse text).2.environment.names = session.environment.names := by
  simp only [parse]
  split
  · rfl
  · next statement found =>
      exact Environment.names_applySteps_of_mem fun staged member =>
        Statement.mem_names_of_mem_steps found member

theorem distinct_parse
    (distinct : session.environment.Distinct)
    (text : String) :
    (session.parse text).2.environment.Distinct := by
  simp only [parse]
  split
  · exact distinct
  · next statement found => exact distinct.applySteps statement.steps

theorem wellNamed_parse
    (wellNamed : session.environment.WellNamed)
    (text : String) :
    (session.parse text).2.environment.WellNamed :=
  Binds.wellNamed (binds_none_iff.mpr (names_parse session text)) wellNamed
    (distinct_parse wellNamed.distinct text) (by simp)

/-- Running a tree whose steps are on bound names binds its target at most. -/
theorem binds_run (shape : tree.IsStatement session.environment.names) :
    session.Binds (session.run tree).2 tree.target? :=
  shape.exists_names_eval

theorem wellNamed_run
    (shape : tree.IsStatement session.environment.names)
    (wellNamed : session.environment.WellNamed) :
    (session.run tree).2.environment.WellNamed :=
  (binds_run shape).wellNamed wellNamed
    (tree.distinct_eval wellNamed.distinct) fun _ => shape.isIdentifier_target

/-- Evaluating a statement is running the tree that is read in the session that
reading leaves. -/
theorem snd_evaluate (session : Session) (text : String) :
    (session.evaluate text).2 =
      match (session.parse text).1 with
      | none => (session.parse text).2
      | some tree => ((session.parse text).2.run tree).2 := by
  simp only [evaluate]
  rcases session.parse text with ⟨_ | tree, after⟩ <;> rfl

/-- Evaluating a statement binds the target of its tree at most. -/
theorem binds_evaluate (session : Session) (text : String) :
    session.Binds (session.evaluate text).2 (session.target? text) := by
  have names := names_parse session text
  rw [snd_evaluate, target?]
  rcases parsed : (session.parse text).1 with _ | tree
  · exact binds_none_iff.mpr names
  · have shape := isStatement_of_parse parsed
    rw [← names] at shape
    obtain ⟨added, sublist, grown⟩ := binds_run shape
    exact ⟨added, sublist, names ▸ grown⟩

theorem wellNamed_evaluate
    (wellNamed : session.environment.WellNamed)
    (text : String) :
    (session.evaluate text).2.environment.WellNamed := by
  have parsedWellNamed := wellNamed_parse wellNamed text
  rw [snd_evaluate]
  rcases parsed : (session.parse text).1 with _ | tree
  · exact parsedWellNamed
  · have shape := isStatement_of_parse parsed
    rw [← names_parse session text] at shape
    exact wellNamed_run shape parsedWellNamed

/-- Behind the whole backlog stands the session that evaluating it leaves. -/
theorem afterFirst_length (session : Session) :
    session.afterFirst session.backlog.length = session.evaluateAll.2 := by
  rw [afterFirst, List.take_length, evaluateAll]

/-- Each of the statements that wait binds the target of its tree at most. -/
theorem binds_afterFirst (session : Session) (count : Nat) :
    (session.afterFirst count).Binds (session.afterFirst (count + 1))
      (session.backlog[count]?.bind (session.afterFirst count).target?) := by
  simp only [afterFirst, List.take_add_one, evaluateEach_append,
    reportBehind]
  cases session.backlog[count]? with
  | none => exact binds_none_iff.mpr rfl
  | some text => exact binds_evaluate _ text

/-- Evaluating texts keeps the names in front. -/
theorem isPrefix_names_evaluateEach (session : Session) (texts : List String) :
    session.environment.names <+:
      (session.evaluateEach texts).2.environment.names := by
  induction texts generalizing session with
  | nil => exact List.prefix_refl _
  | cons text texts textsHypothesis =>
      exact (binds_evaluate session text).isPrefix.trans
        (textsHypothesis (session.evaluate text).2)

/-- Evaluating texts keeps the environment well named. -/
theorem wellNamed_evaluateEach
    (wellNamed : session.environment.WellNamed)
    (texts : List String) :
    (session.evaluateEach texts).2.environment.WellNamed := by
  induction texts generalizing session with
  | nil => exact wellNamed
  | cons text texts textsHypothesis =>
      exact textsHypothesis (wellNamed_evaluate wellNamed text)

namespace Log

/-- The names of a log are distinct identifiers, and its trees are statements
over them. -/
structure Sound (log : Log) : Prop where
  wellNamed : log.session.environment.WellNamed
  trees : ∀ tree ∈ log.trees, tree.IsStatement log.session.environment.names

variable {log : Log}

/-- A fresh log is sound. -/
theorem sound_fresh : fresh.Sound where
  wellNamed := ⟨List.nodup_nil, by simp [fresh, Session.fresh, Environment.empty,
    Environment.names]⟩
  trees := by simp [fresh]

/-- The names of a log stay in front of those that an action leaves. -/
theorem isPrefix_names_act
    (sound : log.Sound)
    (action : Action) :
    log.session.environment.names <+:
      (log.act action).2.session.environment.names := by
  cases action with
  | submit text => exact List.prefix_refl _
  | evaluateAll =>
      exact isPrefix_names_evaluateEach { log.session with backlog := [] }
        log.session.backlog
  | evaluate text => exact (binds_evaluate log.session text).isPrefix
  | parse text =>
      simp only [act, names_parse]
      exact List.prefix_refl _
  | run slot =>
      simp only [act]
      split
      · exact List.prefix_refl _
      · next tree found =>
          have shape := sound.trees tree (List.mem_of_getElem? found)
          exact (binds_run shape).isPrefix

/-- Every action keeps a log sound. Trees that were read before stay
statements, since their names stay bound. -/
theorem Sound.act
    (sound : log.Sound)
    (action : Action) :
    (log.act action).2.Sound := by
  have grown := (isPrefix_names_act sound action).subset
  have earlier (tree : Expr) (member : tree ∈ log.trees) :
      tree.IsStatement (log.act action).2.session.environment.names :=
    (sound.trees tree member).mono grown
  cases action with
  | submit text => exact ⟨sound.wellNamed, earlier⟩
  | evaluateAll =>
      have emptied :
          { log.session with backlog := [] }.environment.WellNamed :=
        sound.wellNamed
      exact ⟨wellNamed_evaluateEach emptied log.session.backlog, earlier⟩
  | evaluate text => exact ⟨wellNamed_evaluate sound.wellNamed text, earlier⟩
  | parse text =>
      refine ⟨wellNamed_parse sound.wellNamed text, ?_⟩
      intro tree member
      rcases List.mem_append.mp member with before | last
      · exact earlier tree before
      · exact (isStatement_of_parse (Option.mem_toList.mp last)).mono grown
  | run slot =>
      simp only [Log.act] at earlier ⊢
      split
      · exact sound
      · next tree found =>
          rw [found] at earlier
          have shape := sound.trees tree (List.mem_of_getElem? found)
          exact ⟨wellNamed_run shape sound.wellNamed, earlier⟩

/-- Every log that actions lead to is sound. -/
theorem sound_actAll (actions : List Action) : (fresh.actAll actions).Sound := by
  suffices after : ∀ log : Log, log.Sound → (log.actAll actions).Sound from
    after fresh sound_fresh
  induction actions with
  | nil => exact fun _ sound => sound
  | cons action actions actionsHypothesis =>
      intro log sound
      exact actionsHypothesis _ (sound.act action)

/-- Whatever was done in a session before, the names after a further action are
distinct identifiers and start with the names before it. Submitting and reading
a statement bind no name. Evaluating a statement, alone or in its turn among
those that wait, and running a tree bind at most the target of the tree. -/
theorem names_grow_by_targets (actions : List Action) (action : Action) :
    let before := fresh.actAll actions
    let after := (before.act action).2
    after.session.environment.Distinct ∧
    (∀ name ∈ after.session.environment.names,
      Token.IsIdentifier name.toList) ∧
    before.session.environment.names <+: after.session.environment.names ∧
    match action with
    | .submit _ =>
        after.session.environment.names = before.session.environment.names
    | .parse _ =>
        after.session.environment.names = before.session.environment.names
    | .evaluate text =>
        before.session.Binds after.session (before.session.target? text)
    | .run slot =>
        before.session.Binds after.session
          (before.trees[slot]?.bind Expr.target?)
    | .evaluateAll =>
        after.session =
          before.session.afterFirst before.session.backlog.length ∧
        ∀ count,
          (before.session.afterFirst count).Binds
            (before.session.afterFirst (count + 1))
            (before.session.backlog[count]?.bind
              (before.session.afterFirst count).target?) := by
  intro before after
  have sound : before.Sound := sound_actAll actions
  obtain ⟨distinct, identifiers⟩ := (sound.act action).wellNamed
  refine ⟨distinct, identifiers, isPrefix_names_act sound action, ?_⟩
  cases action with
  | submit text => rfl
  | parse text => exact names_parse before.session text
  | evaluate text => exact binds_evaluate before.session text
  | run slot =>
      simp only [after, Log.act]
      split
      · next missing =>
          rw [missing]
          exact binds_none_iff.mpr rfl
      · next tree found =>
          rw [found]
          exact binds_run (sound.trees tree (List.mem_of_getElem? found))
  | evaluateAll =>
      exact ⟨before.session.afterFirst_length.symm,
        binds_afterFirst before.session⟩

end Log

end Session

end LineCalculator
