import LineCalculator.Cursor

/-!
# Boundaries of characters

The positions between the characters of a text are the sizes of its fronts in
bytes, and what remains at such a position is the text behind that front. A
cursor at such a position skips the blanks there and then moves over the token
that it reads.
-/

namespace LineCalculator

theorem byteSize_append (front rest : List Char) :
    byteSize (front ++ rest) = byteSize front + byteSize rest := by
  induction front with
  | nil => simp
  | cons character front frontHypothesis =>
      simp only [List.cons_append, byteSize_cons, frontHypothesis]
      omega

/-- Only the empty text has no bytes. -/
theorem byteSize_pos {text : List Char} (nonempty : text ≠ []) :
    0 < byteSize text := by
  cases text with
  | nil => exact absurd rfl nonempty
  | cons character text =>
      have positive := character.utf8Size_pos
      simp only [byteSize_cons]
      omega

/-- The bytes of the characters of a string are the bytes of the string. -/
theorem byteSize_toList (text : String) :
    byteSize text.toList = text.utf8ByteSize := by
  have ofList (characters : List Char) :
      (String.ofList characters).utf8ByteSize = byteSize characters := by
    induction characters with
    | nil => rfl
    | cons character characters charactersHypothesis =>
        rw [String.ofList_cons, String.utf8ByteSize_append, byteSize_cons,
          charactersHypothesis]
        simp
  rw [← ofList, String.ofList_toList]

/-- What remains at a position is what stands behind the front of that size. -/
theorem dropBytes?_eq_some_iff
    {count : Nat}
    {text rest : List Char} :
    dropBytes? count text = some rest ↔
      ∃ front, front ++ rest = text ∧ byteSize front = count := by
  constructor
  · intro dropped
    induction text generalizing count with
    | nil =>
        cases count with
        | zero => exact ⟨[], (Option.some.inj dropped).symm, rfl⟩
        | succ count => simp [dropBytes?] at dropped
    | cons character text textHypothesis =>
        cases count with
        | zero => exact ⟨[], (Option.some.inj dropped).symm, rfl⟩
        | succ count =>
            obtain ⟨fits, dropped⟩ := Option.ite_none_right_eq_some.mp dropped
            obtain ⟨front, split, size⟩ := textHypothesis dropped
            refine ⟨character :: front, by simp [split], ?_⟩
            simp only [byteSize_cons]
            omega
  · rintro ⟨front, rfl, rfl⟩
    induction front with
    | nil => simp [dropBytes?]
    | cons character front frontHypothesis =>
        have positive := character.utf8Size_pos
        obtain ⟨before, size⟩ :=
          Nat.exists_eq_add_one_of_ne_zero (Nat.ne_of_gt positive)
        rw [byteSize_cons, List.cons_append, size, Nat.add_right_comm,
          dropBytes?, if_pos (by omega)]
        rw [show before + byteSize front + 1 - character.utf8Size =
          byteSize front by omega]
        exact frontHypothesis

/-- Dropping the bytes of a front leaves the rest. -/
theorem dropBytes?_append (front rest : List Char) :
    dropBytes? (byteSize front) (front ++ rest) = some rest :=
  dropBytes?_eq_some_iff.mpr ⟨front, rfl, rfl⟩

namespace Cursor

variable
  {cursor : Cursor}
  {reader : Token.Reader α}
  {text front rest : List Char}
  {value : α}

/-- The cursor moved by a number of bytes. -/
def moved (cursor : Cursor) (count : Nat) : Cursor :=
  { cursor with position := cursor.position + count }

/-- A cursor that can be read from stands in its text. -/
theorem position_le_of_rest?
    (remains : cursor.rest? = some text) :
    cursor.position ≤ cursor.text.utf8ByteSize := by
  obtain ⟨front, split, size⟩ := dropBytes?_eq_some_iff.mp remains
  rw [← byteSize_toList, ← split, byteSize_append]
  omega

/-- A cursor that is moved over a front stands before the rest. -/
theorem rest?_moved (remains : cursor.rest? = some (front ++ rest)) :
    (cursor.moved (byteSize front)).rest? = some rest := by
  obtain ⟨before, split, size⟩ := dropBytes?_eq_some_iff.mp remains
  refine dropBytes?_eq_some_iff.mpr ⟨before ++ front, ?_, ?_⟩
  · rw [List.append_assoc, split]
    rfl
  · rw [byteSize_append, size]
    rfl

/-- Behind the blanks stands what is left when the blanks are skipped. -/
theorem rest?_behindBlanks (remains : cursor.rest? = some text) :
    (cursor.moved (byteSize (text.takeWhile isBlank))).rest? =
      some (skipBlanks text) := by
  apply rest?_moved
  rw [remains, skipBlanks, List.takeWhile_append_dropWhile]

/-- Inside a character every reading is an error, and the cursor stays. -/
theorem read_of_none (inside : cursor.rest? = none) :
    cursor.read reader = (.error .insideCharacter, cursor) := by
  simp only [read, inside]

/-- A reading that misses leaves the cursor, blanks included. -/
theorem read_of_miss
    (remains : cursor.rest? = some text)
    (missed : reader text = none) :
    cursor.read reader = (.ok none, cursor) := by
  simp only [read, remains, missed]

/-- What is read depends on what the reader finds at the position only. -/
theorem read_congr
    {reader' : Token.Reader α}
    (remains : cursor.rest? = some text)
    (same : reader text = reader' text) :
    cursor.read reader = cursor.read reader' := by
  simp only [read, remains, same]

/-- A token that is read is moved over, together with the blanks in front. -/
theorem read_of_match
    (remains : cursor.rest? = some text)
    (split : front ++ rest = skipBlanks text)
    (found : reader text = some (value, rest)) :
    cursor.read reader =
      (.ok (some value), (cursor.moved
        (byteSize (text.takeWhile isBlank))).moved (byteSize front)) := by
  have size : byteSize text =
      byteSize (text.takeWhile isBlank) + (byteSize front + byteSize rest) := by
    rw [← byteSize_append front, split, skipBlanks, ← byteSize_append,
      List.takeWhile_append_dropWhile]
  have taken : byteSize text - byteSize rest =
      byteSize (text.takeWhile isBlank) + byteSize front := by
    omega
  simp only [read, remains, found, taken, moved, Nat.add_assoc]

end Cursor

end LineCalculator
