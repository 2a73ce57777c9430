import LineCalculator.Expr
import LineCalculator.Proofs.Environment.Recording

/-!
# What evaluation writes

Evaluating a tree records its steps after names and its assignments one after
another: those of a left operand before those of the right one, and those of the
value of an assignment before its target. Recording them is all that evaluation
does to the environment, so the names that it adds and the values that it leaves
are those of the recordings, whatever the tree is.
-/

namespace LineCalculator

/-- A binding that evaluation records, for a step after a name or for an
assignment. -/
inductive Write
  | step (name : String) (value : Float)
  | assignment (target : String) (value : Float)
  deriving DecidableEq

namespace Write

/-- The binding that is recorded. -/
def binding : Write → Binding
  | .step name value => ⟨name, value⟩
  | .assignment target value => ⟨target, value⟩

/-- The name that is written. -/
def name (write : Write) : String :=
  write.binding.name

end Write

namespace Expr

/-- The names that a tree writes, in the order of evaluation. -/
def written : Expr → List String
  | .literal _ | .var _ => []
  | .postStep name _ => [name]
  | .binary _ left right => left.written ++ right.written
  | .assignment target value => value.written ++ [target]
  | .call _ argument => argument.written

/-- What a tree writes when it is evaluated. A step writes the value after it,
and an assignment writes the value that it has. -/
def writes : Expr → Environment → List Write
  | .literal _, _ | .var _, _ => []
  | .postStep name step, environment =>
      [.step name (step.apply (environment.lookup name))]
  | .binary _ left right, environment =>
      left.writes environment ++ right.writes (left.eval environment).2
  | .assignment target value, environment =>
      value.writes environment ++
        [.assignment target (value.eval environment).1]
  | .call _ argument, environment => argument.writes environment

/-- Which names are written does not depend on the environment. -/
theorem map_name_writes (tree : Expr) (environment : Environment) :
    (tree.writes environment).map Write.name = tree.written := by
  induction tree generalizing environment with
  | literal value => rfl
  | var name => rfl
  | postStep name step => rfl
  | binary operator left right leftHypothesis rightHypothesis =>
      rw [writes, written, List.map_append, leftHypothesis, rightHypothesis]
  | assignment target value valueHypothesis =>
      rw [writes, written, List.map_append, valueHypothesis]
      rfl
  | call function argument argumentHypothesis =>
      exact argumentHypothesis environment

/-- Evaluation leaves the environment in which all that it writes is
recorded. -/
theorem snd_eval_eq_recordAll (tree : Expr) (environment : Environment) :
    (tree.eval environment).2 =
      environment.recordAll ((tree.writes environment).map Write.binding) := by
  induction tree generalizing environment with
  | literal value => rfl
  | var name => rfl
  | postStep name step => rfl
  | binary operator left right leftHypothesis rightHypothesis =>
      rw [eval_binary, rightHypothesis, writes, List.map_append,
        Environment.recordAll_append, ← leftHypothesis]
  | assignment target value valueHypothesis =>
      rw [eval_assignment, writes, List.map_append,
        Environment.recordAll_append, ← valueHypothesis]
      rfl
  | call function argument argumentHypothesis =>
      exact argumentHypothesis environment

/-- Evaluating any tree adds the names that it writes and that were not bound,
once each in the order in which they first occur, behind the names that were
bound. Names stay distinct, and a name that is not written keeps its value or
stays without one. A target that is written by an assignment and not again later
has the value of that assignment. -/
theorem evaluation_records_what_it_writes
    (tree : Expr)
    {environment : Environment}
    (distinct : environment.Distinct) :
    let writes := tree.writes environment
    let after := (tree.eval environment).2
    writes.map Write.name = tree.written ∧
    after.names =
      environment.names ++
        (tree.written.filter fun name => name ∉ environment.names).eraseDups ∧
    after.Distinct ∧
    (∀ name, name ∉ tree.written → after.get? name = environment.get? name) ∧
    ∀ before target value later,
      writes = before ++ .assignment target value :: later →
      target ∉ later.map Write.name → after.get? target = some value := by
  intro writes after
  have after_eq : after = environment.recordAll (writes.map Write.binding) :=
    tree.snd_eval_eq_recordAll environment
  have names_eq : (writes.map Write.binding).map Binding.name = tree.written := by
    rw [List.map_map]
    exact tree.map_name_writes environment
  rw [after_eq]
  refine ⟨tree.map_name_writes environment, ?_, distinct.recordAll _, ?_, ?_⟩
  · rw [Environment.names_recordAll, names_eq]
  · intro name notWritten
    exact Environment.get?_recordAll_of_not_mem (names_eq ▸ notWritten) environment
  · intro before target value later split last
    have lastBinding : (Binding.mk target value).name ∉
        (later.map Write.binding).map Binding.name := by
      rwa [List.map_map]
    rw [split, List.map_append, List.map_cons]
    exact Environment.get?_recordAll_of_last lastBinding environment _

/-- The tree `(b = a++ + (a = 7)) * cube(b++) + (c = a)` writes `a` and `b`
twice each. It binds `b` in front of `c` behind `a` and `z`, and `a` has the
value assigned to it although a step on it came before. -/
theorem evaluation_records_what_it_writes_in_nested_assignments :
    let tree : Expr := .binary .addition
      (.binary .multiplication
        (.assignment "b" (.binary .addition (.postStep "a" .increment)
          (.assignment "a" (.literal 7.0))))
        (.call "cube" (.postStep "b" .increment)))
      (.assignment "c" (.var "a"))
    let environment : Environment := ⟨[⟨"a", 1.0⟩, ⟨"z", 5.0⟩]⟩
    let after := (tree.eval environment).2
    environment.Distinct ∧ tree.written = ["a", "a", "b", "b", "c"] ∧
      after.names = ["a", "z", "b", "c"] ∧ after.Distinct ∧
      "z" ∉ tree.written ∧ after.get? "z" = some 5.0 ∧
      tree.writes environment =
        [.step "a" 2.0] ++ .assignment "a" 7.0 ::
          [.assignment "b" 8.0, .step "b" 9.0, .assignment "c" 7.0] ∧
      after.get? "a" = some 7.0 := by
  intro tree environment after
  have distinct : environment.Distinct := by
    unfold Environment.Distinct
    decide
  have writes_eq : tree.writes environment =
      [.step "a" 2.0] ++ .assignment "a" 7.0 ::
        [.assignment "b" 8.0, .step "b" 9.0, .assignment "c" 7.0] := by
    decide +kernel
  obtain ⟨-, names, afterDistinct, unwritten, assigned⟩ :=
    evaluation_records_what_it_writes tree distinct
  refine ⟨distinct, rfl, names.trans (by decide), afterDistinct, by decide,
    unwritten "z" (by decide), writes_eq, ?_⟩
  exact assigned _ "a" 7.0 _ writes_eq (by decide)

end Expr

end LineCalculator
