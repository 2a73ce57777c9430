import LineCalculator.Number
import LineCalculator.Operator

/-!
# Environments

An environment binds names to values in the order in which the names were first
recorded. Recording a name that is bound changes its value in place. A name that
is not bound has the value zero.
-/

namespace LineCalculator

/-- A name and its value. -/
structure Binding where
  name : String
  value : Float
  deriving DecidableEq

/-- The bindings in order of first recording. -/
structure Environment where
  bindings : List Binding
  deriving DecidableEq

namespace Environment

/-- The environment without bindings. -/
def empty : Environment :=
  ⟨[]⟩

/-- The bound names in order of first recording. -/
def names (environment : Environment) : List String :=
  environment.bindings.map Binding.name

/-- Every name has at most one binding. -/
def Distinct (environment : Environment) : Prop :=
  environment.names.Nodup

/-- The number of bindings. -/
def size (environment : Environment) : Nat :=
  environment.bindings.length

/-- Whether there is no binding. -/
def isEmpty (environment : Environment) : Bool :=
  environment.bindings.isEmpty

/-- The value bound to a name. -/
def get? (environment : Environment) (name : String) : Option Float :=
  (environment.bindings.find? fun binding => binding.name = name).map
    Binding.value

/-- The value of a name, which is zero when it is not bound. -/
def lookup (environment : Environment) (name : String) : Float :=
  (environment.get? name).getD 0.0

/-- Whether a name is bound. -/
def contains (environment : Environment) (name : String) : Bool :=
  (environment.get? name).isSome

/-- Record a value in a list of bindings. -/
def recordBinding (name : String) (value : Float) : List Binding → List Binding
  | [] => [⟨name, value⟩]
  | binding :: rest =>
      if binding.name = name then ⟨name, value⟩ :: rest
      else binding :: recordBinding name value rest

/-- Bind a name to a value, in place when it is bound and at the end otherwise. -/
def record
    (environment : Environment)
    (name : String)
    (value : Float) : Environment :=
  ⟨recordBinding name value environment.bindings⟩

@[simp] theorem get?_empty (name : String) : empty.get? name = none := rfl

/-- After a name is recorded it has the recorded value, and every other name has
the value it had. -/
theorem get?_record
    (environment : Environment)
    (name other : String)
    (value : Float) :
    (environment.record name value).get? other =
      if other = name then some value else environment.get? other := by
  obtain ⟨bindings⟩ := environment
  simp only [record, get?]
  induction bindings with
  | nil =>
      by_cases same : other = name <;>
        simp [recordBinding, same, eq_comm]
  | cons binding rest restHypothesis =>
      by_cases found : binding.name = name
      · by_cases same : other = name
        · simp [recordBinding, found, same]
        · have different : name ≠ other := fun equal => same equal.symm
          simp [recordBinding, found, same, different]
      · by_cases here : binding.name = other
        · have different : other ≠ name := fun equal => found (here.trans equal)
          simp [recordBinding, here, different]
        · simpa [recordBinding, found, here] using restHypothesis

/-- Recording a bound name leaves the names as they are; any other name is added
at the end. -/
theorem names_record
    (environment : Environment)
    (name : String)
    (value : Float) :
    (environment.record name value).names =
      if name ∈ environment.names then environment.names
      else environment.names ++ [name] := by
  obtain ⟨bindings⟩ := environment
  simp only [record, names]
  induction bindings with
  | nil => rfl
  | cons binding rest restHypothesis =>
      by_cases found : binding.name = name
      · simp [recordBinding, found]
      · have different : name ≠ binding.name := fun equal => found equal.symm
        by_cases later : name ∈ rest.map Binding.name <;>
          simp_all [recordBinding]

/-- Recording keeps names distinct. -/
theorem Distinct.record
    {environment : Environment}
    (distinct : environment.Distinct)
    (name : String)
    (value : Float) :
    (environment.record name value).Distinct := by
  unfold Distinct at distinct ⊢
  rw [names_record]
  by_cases bound : name ∈ environment.names
  · rwa [if_pos bound]
  · rw [if_neg bound, List.nodup_append]
    refine ⟨distinct, by simp, ?_⟩
    intro earlier earlierBound later isName equal
    rw [List.mem_singleton] at isName
    exact bound (isName ▸ equal ▸ earlierBound)

/-- Change the value of a name by one. -/
def applyStep
    (environment : Environment)
    (name : String)
    (step : Step) : Environment :=
  environment.record name (step.apply (environment.lookup name))

/-- The second name is not longer than the first. Length counts the bytes of a
name in UTF-8. -/
def NotShorter (name other : String) : Prop :=
  other.utf8ByteSize ≤ name.utf8ByteSize

instance : DecidableRel NotShorter := fun name other =>
  inferInstanceAs (Decidable (other.utf8ByteSize ≤ name.utf8ByteSize))

/-- The bound names, longer ones first and names of equal length in order of
first recording. -/
def namesByLength (environment : Environment) : List String :=
  environment.names.mergeSort fun name other => NotShorter name other

/-- Sorting the names keeps every name. -/
@[simp] theorem mem_namesByLength
    {environment : Environment}
    {name : String} :
    name ∈ environment.namesByLength ↔ name ∈ environment.names :=
  List.mem_mergeSort

/-- The text of a binding. -/
def bindingText (binding : Binding) : String :=
  binding.name ++ "=" ++ Number.text binding.value

/-- The text of an environment: its bindings between parentheses, separated by
commas. -/
def text (environment : Environment) : String :=
  "(" ++ ",".intercalate (environment.bindings.map bindingText) ++ ")"

end Environment

end LineCalculator
