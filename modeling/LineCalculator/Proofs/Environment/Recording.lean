import LineCalculator.Environment

/-!
# Recording several bindings

Bindings that are recorded one after another add their names in the order in
which these first occur, behind the names that were bound before. A name has the
value of its last recording, and a name that is not recorded keeps its value.
-/

namespace LineCalculator

namespace Environment

/-- Record bindings, the first one first. -/
def recordAll
    (environment : Environment)
    (bindings : List Binding) : Environment :=
  bindings.foldl
    (fun environment binding => environment.record binding.name binding.value)
    environment

@[simp] theorem recordAll_nil (environment : Environment) :
    environment.recordAll [] = environment := rfl

@[simp] theorem recordAll_cons
    (environment : Environment)
    (binding : Binding)
    (bindings : List Binding) :
    environment.recordAll (binding :: bindings) =
      (environment.record binding.name binding.value).recordAll bindings := rfl

theorem recordAll_append
    (environment : Environment)
    (first second : List Binding) :
    environment.recordAll (first ++ second) =
      (environment.recordAll first).recordAll second := by
  rw [recordAll, List.foldl_append]
  rfl

/-- The names that were not bound are added once each, in the order of their
first recordings. -/
theorem names_recordAll
    (environment : Environment)
    (bindings : List Binding) :
    (environment.recordAll bindings).names =
      environment.names ++
        ((bindings.map Binding.name).filter
          fun name => name ∉ environment.names).eraseDups := by
  induction bindings generalizing environment with
  | nil => simp
  | cons binding bindings bindingsHypothesis =>
      rw [recordAll_cons, bindingsHypothesis, names_record]
      by_cases bound : binding.name ∈ environment.names
      · simp [bound]
      · -- A name that is added is not added again.
        have others :
            ((bindings.map Binding.name).filter
              fun name => name ∉ environment.names ++ [binding.name]) =
            ((bindings.map Binding.name).filter
              fun name => name ∉ environment.names).filter
                fun name => !name == binding.name := by
          rw [List.filter_filter]
          refine List.filter_congr fun name _ => ?_
          by_cases same : name = binding.name <;> simp [same]
        rw [if_neg bound, others, List.map_cons,
          List.filter_cons_of_pos (by simpa using bound), List.eraseDups_cons,
          List.append_assoc, List.singleton_append]

/-- Recordings keep the names distinct. -/
theorem Distinct.recordAll
    {environment : Environment}
    (distinct : environment.Distinct)
    (bindings : List Binding) :
    (environment.recordAll bindings).Distinct := by
  induction bindings generalizing environment with
  | nil => exact distinct
  | cons binding bindings bindingsHypothesis =>
      exact bindingsHypothesis (distinct.record binding.name binding.value)

/-- The last recording of a name. -/
def lastRecording? (recordings : List Binding) (name : String) : Option Binding :=
  recordings.findRev? fun recording => recording.name = name

/-- The first recording counts when no later one has its name. -/
theorem lastRecording?_cons
    (recording : Binding)
    (later : List Binding)
    (name : String) :
    lastRecording? (recording :: later) name =
      (lastRecording? later name).or
        (if recording.name = name then some recording else none) := by
  simp only [lastRecording?, List.findRev?, decide_eq_true_eq]
  cases List.findRev? (fun recording => recording.name = name) later <;> rfl

theorem name_of_lastRecording?
    {recordings : List Binding}
    {name : String}
    {recording : Binding}
    (last : lastRecording? recordings name = some recording) :
    recording.name = name := by
  rw [lastRecording?, List.findRev?_eq_find?_reverse] at last
  simpa using List.find?_some last

/-- A name has no last recording exactly when it is never recorded. -/
theorem lastRecording?_eq_none_iff
    {recordings : List Binding}
    {name : String} :
    lastRecording? recordings name = none ↔
      name ∉ recordings.map Binding.name := by
  simp [lastRecording?]

/-- A name has the value of its last recording, or the value that it had when it
is not recorded. -/
theorem get?_recordAll
    (environment : Environment)
    (recordings : List Binding)
    (name : String) :
    (environment.recordAll recordings).get? name =
      ((lastRecording? recordings name).map Binding.value).or
        (environment.get? name) := by
  induction recordings generalizing environment with
  | nil => rfl
  | cons recording later laterHypothesis =>
      rw [recordAll_cons, laterHypothesis, get?_record, lastRecording?_cons]
      by_cases here : recording.name = name
      · rw [if_pos here, if_pos here.symm]
        cases lastRecording? later name <;> rfl
      · rw [if_neg here, if_neg (Ne.symm here), Option.or_none]

/-- A name that is not recorded keeps its value. -/
theorem get?_recordAll_of_not_mem
    {name : String}
    {bindings : List Binding}
    (notRecorded : name ∉ bindings.map Binding.name)
    (environment : Environment) :
    (environment.recordAll bindings).get? name = environment.get? name := by
  rw [get?_recordAll, lastRecording?_eq_none_iff.mpr notRecorded]
  rfl

/-- A name has the value that no later recording replaces. -/
theorem get?_recordAll_of_last
    {binding : Binding}
    {later : List Binding}
    (last : binding.name ∉ later.map Binding.name)
    (environment : Environment)
    (before : List Binding) :
    (environment.recordAll (before ++ binding :: later)).get? binding.name =
      some binding.value := by
  rw [recordAll_append, get?_recordAll, lastRecording?_cons,
    lastRecording?_eq_none_iff.mpr last, if_pos rfl]
  rfl

end Environment

end LineCalculator
