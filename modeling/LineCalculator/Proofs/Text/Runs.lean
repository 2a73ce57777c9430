import LineCalculator.Proofs.Token.Spelling

/-!
# Runs of characters

The maximal nonempty runs of characters of one kind, in the order of the text.
The chunks of a text are its runs of characters that are not blank, and its
words are its runs of letters and digits that start with a letter.
-/

namespace LineCalculator

open Token (IsIdentifier Stops)

/-- The maximal nonempty runs of characters of a kind. -/
def runs (kind : Char → Bool) (text : List Char) : List (List Char) :=
  (text.splitOnP fun character => !kind character).filter fun run =>
    !run.isEmpty

/-- A character leaves ink on the page when it is not blank. -/
def isInk (character : Char) : Bool :=
  !isBlank character

@[simp] theorem isInk_eq_true {character : Char} :
    isInk character = true ↔ isBlank character = false := by
  simp [isInk]

@[simp] theorem isInk_eq_false {character : Char} :
    isInk character = false ↔ isBlank character = true := by
  simp [isInk]

/-- The maximal runs of characters that are not blank. -/
def chunks (text : List Char) : List (List Char) :=
  runs isInk text

/-- The maximal runs of letters and digits that start with a letter. -/
def words (text : List Char) : List String :=
  ((runs Char.isAlphanum text).filter fun run => IsIdentifier run).map
    String.ofList

variable {kind : Char → Bool}

@[simp] theorem runs_nil : runs kind [] = [] := by
  simp [runs]

/-- A character of another kind separates the runs on both sides of it. -/
theorem runs_append_cons
    {character : Char}
    (other : kind character = false)
    (front text : List Char) :
    runs kind (front ++ character :: text) =
      runs kind front ++ runs kind text := by
  have separates : (!kind character) = true := by simp [other]
  simp only [runs]
  rw [List.splitOnP_append_cons front text separates, List.filter_append]

/-- A character of another kind belongs to no run. -/
theorem runs_cons_of_other
    {character : Char}
    (other : kind character = false)
    (text : List Char) :
    runs kind (character :: text) = runs kind text := by
  simpa using runs_append_cons other [] text

/-- What is of another kind in front of a text starts no run. -/
theorem runs_append_of_others
    {gap : List Char}
    (others : ∀ character ∈ gap, kind character = false)
    (text : List Char) :
    runs kind (gap ++ text) = runs kind text := by
  induction gap with
  | nil => rfl
  | cons character gap gapHypothesis =>
      rw [List.cons_append,
        runs_cons_of_other (others character List.mem_cons_self),
        gapHypothesis fun next later =>
          others next (List.mem_cons_of_mem character later)]

/-- Characters of a kind in front of a text that does not carry them on are its
first run. -/
theorem runs_append_of_stops
    {front rest : List Char}
    (all : ∀ character ∈ front, kind character = true)
    (nonempty : front ≠ [])
    (stops : Stops kind rest) :
    runs kind (front ++ rest) = front :: runs kind rest := by
  have inside : ∀ character ∈ front, (!kind character) = false := by
    intro character member
    simp [all character member]
  have kept : [front].filter (fun run => !run.isEmpty) = [front] := by
    simp [nonempty]
  have alone : runs kind front = [front] := by
    rw [runs, List.splitOnP_eq_singleton inside, kept]
  cases rest with
  | nil => rw [List.append_nil, alone, runs_nil]
  | cons first rest =>
      have other := stops first rfl
      rw [runs_append_cons other, runs_cons_of_other other, alone]
      rfl

/-- A nonempty gap between two texts separates their runs. -/
theorem runs_append_gap
    {gap : List Char}
    (others : ∀ character ∈ gap, kind character = false)
    (nonempty : gap ≠ [])
    (front text : List Char) :
    runs kind (front ++ gap ++ text) = runs kind front ++ runs kind text := by
  cases gap with
  | nil => exact absurd rfl nonempty
  | cons character gap =>
      rw [List.append_assoc, List.cons_append,
        runs_append_cons (others character List.mem_cons_self),
        runs_append_of_others fun next later =>
          others next (List.mem_cons_of_mem character later)]

/-- Where the front of a text does not end in a character of the kind, no run
reaches over its end. -/
theorem runs_append_of_getLast?
    {front : List Char}
    (ends : ∀ last ∈ front.getLast?, kind last = false)
    (text : List Char) :
    runs kind (front ++ text) = runs kind front ++ runs kind text := by
  rcases List.eq_nil_or_concat front with rfl | ⟨front, last, rfl⟩
  · simp
  · have other : kind last = false := ends last (by simp)
    rw [List.concat_eq_append, List.append_assoc, List.singleton_append,
      runs_append_cons other, runs_append_cons other, runs_nil, List.append_nil]

/-- What is of another kind behind a text starts no run. -/
theorem runs_append_others
    {gap : List Char}
    (others : ∀ character ∈ gap, kind character = false)
    (text : List Char) :
    runs kind (text ++ gap) = runs kind text := by
  by_cases nonempty : gap = []
  · rw [nonempty, List.append_nil]
  · simpa using runs_append_gap others nonempty text []

end LineCalculator
