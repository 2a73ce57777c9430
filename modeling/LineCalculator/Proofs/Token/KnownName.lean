import LineCalculator.Environment
import LineCalculator.Proofs.Cursor.Boundary
import LineCalculator.Proofs.Token.Spelling
import Mathlib.Data.List.Sort

/-!
# Known names

The bound names are tried with longer ones first. Where a bound name that is an
identifier stands whole in the text, no longer one can be found, so it is the
one that is read.
-/

namespace LineCalculator

/-- No name of a list is longer than a name before it. -/
def LongestFirst (names : List String) : Prop :=
  names.Pairwise Environment.NotShorter

namespace Environment

instance : Std.Total NotShorter :=
  ⟨fun name other => Nat.le_total other.utf8ByteSize name.utf8ByteSize⟩

instance : IsTrans String NotShorter :=
  ⟨fun _ _ _ notShorter notShorter' => Nat.le_trans notShorter' notShorter⟩

/-- The names by length are in the order that their name says. -/
theorem longestFirst_namesByLength (environment : Environment) :
    LongestFirst environment.namesByLength :=
  List.pairwise_mergeSort' NotShorter environment.names

end Environment

namespace Token

variable {names names' : List String} {text rest : List Char}

/-- A name that is a front of another one, and not shorter, is that name. -/
theorem eq_of_isPrefix_of_size_le
    {name known : String}
    (front : name.toList <+: known.toList)
    (notLonger : known.utf8ByteSize ≤ name.utf8ByteSize) :
    name = known := by
  obtain ⟨tail, split⟩ := front
  have size := congrArg byteSize split
  simp only [byteSize_append, byteSize_toList] at size
  have nothing : tail = [] := by
    by_contra nonempty
    have positive := byteSize_pos nonempty
    omega
  exact String.toList_injective (by simpa [nothing] using split)

/-- An identifier found in front of a name that stands whole in the text is a
front of that name. -/
theorem exists_tail_of_literal
    {name known : String}
    {after : List Char}
    (isIdentifier : IsIdentifier known.toList)
    (stops : Stops Char.isAlphanum rest)
    (split : name.toList ++ rest = skipBlanks text)
    (found : literal known text = some ((), after)) :
    ∃ tail, known.toList ++ tail = name.toList ∧ tail ++ rest = after := by
  have start := (literal_eq_some_iff.mp found).2
  rw [← split] at start
  rcases List.append_eq_append_iff.mp start with
    ⟨tail, nameSplit, afterSplit⟩ | ⟨tail, knownSplit, restSplit⟩
  · exact ⟨tail, nameSplit.symm, afterSplit.symm⟩
  · cases tail with
    | nil => exact ⟨[], by simpa using knownSplit, by simpa using restSplit⟩
    | cons first tail =>
        have inside : first ∈ known.toList := by
          rw [knownSplit]
          simp
        have outside := stops first (by simp [restSplit])
        simp [isIdentifier.isAlphanum inside] at outside

/-- A known name that stands whole in the text is the one that is read. -/
theorem anyOf_eq_some_of_longestFirst
    {name : String}
    (identifiers : ∀ known ∈ names, IsIdentifier known.toList)
    (sorted : LongestFirst names)
    (member : name ∈ names)
    (stops : Stops Char.isAlphanum rest)
    (split : name.toList ++ rest = skipBlanks text) :
    anyOf id names text = some (name, rest) := by
  have nonempty := (identifiers name member).ne_nil
  have found : literal (id name) text = some ((), rest) :=
    literal_eq_some_iff.mpr ⟨nonempty, split⟩
  refine anyOf_eq_some member found (sorted.imp_of_mem ?_)
  rintro earlier _ earlierMember - notLonger rfl
  rcases earlierFound : literal (id earlier) text with _ | ⟨value, after⟩
  · exact .inl rfl
  · right
    obtain ⟨tail, nameSplit, -⟩ := exists_tail_of_literal
      (identifiers earlier earlierMember) stops split earlierFound
    exact eq_of_isPrefix_of_size_le ⟨tail, nameSplit⟩ notLonger

/-- Where a known name stands in front of a text, a name is read, and it is not
shorter. -/
theorem exists_anyOf_of_literal
    {known : String}
    {after : List Char}
    (sorted : LongestFirst names)
    (member : known ∈ names)
    (found : literal known text = some ((), after)) :
    ∃ name rest, anyOf id names text = some (name, rest) ∧
      known.utf8ByteSize ≤ name.utf8ByteSize := by
  induction names with
  | nil => simp at member
  | cons first names namesHypothesis =>
      obtain ⟨firstLongest, laterSorted⟩ := List.pairwise_cons.mp sorted
      simp only [anyOf]
      rcases firstFound : literal (id first) text with _ | ⟨_, rest⟩
      · rcases List.mem_cons.mp member with rfl | later
        · simp [found] at firstFound
        · exact namesHypothesis laterSorted later
      · refine ⟨first, rest, rfl, ?_⟩
        rcases List.mem_cons.mp member with rfl | later
        · exact Nat.le_refl _
        · exact firstLongest known later

/-- The longest of the names that a text starts with. All others that it starts
with are shorter, so there is at most one. -/
structure IsLongestFront
    (names : List String)
    (text : List Char)
    (name : String) : Prop where
  member : name ∈ names
  nonempty : name ≠ ""
  front : name.toList <+: text
  longest : ∀ other ∈ names, other ≠ name → other.toList <+: text →
    other.utf8ByteSize < name.utf8ByteSize

/-- The longest name depends on which names there are, not on their order. -/
theorem IsLongestFront.congr
    {name : String}
    (longest : IsLongestFront names text name)
    (same : ∀ name, name ∈ names ↔ name ∈ names') :
    IsLongestFront names' text name where
  member := (same name).mp longest.member
  nonempty := longest.nonempty
  front := longest.front
  longest other member := longest.longest other ((same other).mpr member)

/-- The name that is read is the longest one in front of the text. -/
theorem isLongestFront_of_anyOf
    {name : String}
    (sorted : LongestFirst names)
    (read : anyOf id names text = some (name, rest)) :
    IsLongestFront names (skipBlanks text) name := by
  obtain ⟨nonempty, split⟩ : name.toList ≠ [] ∧ _ :=
    literal_eq_some_iff.mp (literal_of_anyOf read)
  have front : name.toList <+: skipBlanks text := ⟨rest, split⟩
  have positive : 0 < name.utf8ByteSize :=
    byteSize_toList name ▸ byteSize_pos nonempty
  refine ⟨mem_of_anyOf read, by simpa using nonempty, front, ?_⟩
  rintro other member different ⟨after, otherSplit⟩
  by_contra notShorter
  have otherNonempty : other.toList ≠ [] := by
    intro empty
    have size := byteSize_toList other
    rw [empty, byteSize_nil] at size
    omega
  obtain ⟨_, _, found, notLonger⟩ := exists_anyOf_of_literal sorted member
    (literal_eq_some_iff.mpr ⟨otherNonempty, otherSplit⟩)
  rw [read] at found
  obtain ⟨rfl, rfl⟩ := Prod.mk.inj (Option.some.inj found)
  rcases List.prefix_or_prefix_of_prefix front ⟨after, otherSplit⟩ with
    inside | inside
  · exact different (eq_of_isPrefix_of_size_le inside notLonger).symm
  · exact different (eq_of_isPrefix_of_size_le inside (by omega))

/-- Where no name is read, the text starts with none of them. -/
theorem not_isPrefix_of_anyOf
    {name : String}
    (missing : anyOf id names text = none)
    (member : name ∈ names)
    (nonempty : name ≠ "") :
    ¬ name.toList <+: skipBlanks text := by
  rintro ⟨rest, split⟩
  have found : literal (id name) text = some ((), rest) :=
    literal_eq_some_iff.mpr ⟨by simpa using nonempty, split⟩
  exact anyOf_ne_none member found missing

/-- Of two lists with the same names, longer ones first, the same name is read:
the fronts of a text differ in length. -/
theorem anyOf_eq_of_longestFirst
    (sorted : LongestFirst names)
    (sorted' : LongestFirst names')
    (same : ∀ name, name ∈ names ↔ name ∈ names')
    (text : List Char) :
    anyOf id names text = anyOf id names' text := by
  rcases read : anyOf id names text with _ | ⟨name, rest⟩
  · rcases read' : anyOf id names' text with _ | ⟨name', rest'⟩
    · rfl
    · obtain ⟨_, _, found, -⟩ := exists_anyOf_of_literal sorted
        ((same name').mpr (mem_of_anyOf read')) (literal_of_anyOf read')
      simp [read] at found
  · obtain ⟨name', rest', read', notLonger⟩ := exists_anyOf_of_literal sorted'
      ((same name).mp (mem_of_anyOf read)) (literal_of_anyOf read)
    obtain ⟨_, _, found, notLonger'⟩ := exists_anyOf_of_literal sorted
      ((same name').mpr (mem_of_anyOf read')) (literal_of_anyOf read')
    rw [read] at found
    obtain ⟨rfl, rfl⟩ := Prod.mk.inj (Option.some.inj found)
    have equal : name = name' := by
      rcases front_or_front_of_literal (literal_of_anyOf read)
        (literal_of_anyOf read') with front | front
      · exact eq_of_isPrefix_of_size_le front notLonger'
      · exact (eq_of_isPrefix_of_size_le front notLonger).symm
    subst equal
    have rests := (literal_of_anyOf read).symm.trans (literal_of_anyOf read')
    simp only [Option.some.injEq, Prod.mk.injEq, true_and] at rests
    rw [read', rests]

end Token

end LineCalculator
