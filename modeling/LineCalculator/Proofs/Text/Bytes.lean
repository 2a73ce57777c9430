import LineCalculator.Proofs.Cursor.Boundary
import LineCalculator.Proofs.Token.Spelling

/-!
# Texts as bytes

A character beyond ASCII starts with a byte beyond ASCII in UTF-8. So the first
byte of a text tells whether a given ASCII character comes next, and the digits
in front of a text are the digits in front of its bytes.
-/

namespace LineCalculator

/-- The bytes of a text in UTF-8. -/
def utf8Bytes (text : List Char) : List UInt8 :=
  text.flatMap String.utf8EncodeChar

/-- Whether a byte is an ASCII digit. -/
def isDigitByte (byte : UInt8) : Bool :=
  '0'.toUInt8 ≤ byte && byte ≤ '9'.toUInt8

@[simp] theorem utf8Bytes_nil : utf8Bytes [] = [] := rfl

@[simp] theorem utf8Bytes_cons (character : Char) (text : List Char) :
    utf8Bytes (character :: text) =
      String.utf8EncodeChar character ++ utf8Bytes text := rfl

theorem utf8Bytes_append (front rest : List Char) :
    utf8Bytes (front ++ rest) = utf8Bytes front ++ utf8Bytes rest :=
  List.flatMap_append

/-- A text has as many bytes as its size says. -/
theorem length_utf8Bytes (text : List Char) :
    (utf8Bytes text).length = byteSize text := by
  induction text with
  | nil => rfl
  | cons character text textHypothesis =>
      simp [textHypothesis, String.length_utf8EncodeChar]

/-- A character is one byte in ASCII, and starts with a larger byte beyond. -/
theorem utf8EncodeChar_cases (character : Char) :
    (character.toNat ≤ 127 ∧
      String.utf8EncodeChar character = [character.toUInt8]) ∨
    (127 < character.toNat ∧ ∃ lead later,
      String.utf8EncodeChar character = lead :: later ∧ 127 < lead.toNat) := by
  have toNat : character.toNat = character.val.toNat := rfl
  unfold String.utf8EncodeChar
  simp only
  split_ifs with ascii two three
  · exact .inl ⟨ascii, rfl⟩
  · refine .inr ⟨Nat.lt_of_not_le ascii, _, _, rfl, ?_⟩
    simp only [UInt8.toNat_ofNat']
    omega
  · refine .inr ⟨Nat.lt_of_not_le ascii, _, _, rfl, ?_⟩
    simp only [UInt8.toNat_ofNat']
    omega
  · refine .inr ⟨Nat.lt_of_not_le ascii, _, _, rfl, ?_⟩
    simp only [UInt8.toNat_ofNat']
    omega

/-- The byte of an ASCII character is its code. -/
theorem toNat_toUInt8
    {character : Char}
    (ascii : character.toNat ≤ 127) :
    character.toUInt8.toNat = character.toNat := by
  change character.val.toUInt8.toNat = character.toNat
  rw [UInt32.toNat_toUInt8]
  exact Nat.mod_eq_of_lt (Nat.lt_of_le_of_lt ascii (by decide))

/-- The bytes of digits are those of the codes 48 to 57. -/
theorem isDigitByte_iff {byte : UInt8} :
    isDigitByte byte = true ↔ 48 ≤ byte.toNat ∧ byte.toNat ≤ 57 := by
  simp only [isDigitByte, Bool.and_eq_true, decide_eq_true_eq,
    UInt8.le_iff_toNat_le]
  exact Iff.rfl

/-- The first byte of a text is that of an ASCII character exactly where the
character comes first. -/
theorem head?_utf8Bytes_eq_some_iff
    {expected : Char}
    {text : List Char}
    (ascii : expected.toNat ≤ 127) :
    (utf8Bytes text).head? = some expected.toUInt8 ↔
      text.head? = some expected := by
  cases text with
  | nil => simp
  | cons first text =>
      have expectedByte := toNat_toUInt8 ascii
      rcases utf8EncodeChar_cases first with
        ⟨firstAscii, single⟩ | ⟨notAscii, lead, later, encoded, large⟩
      · have firstByte := toNat_toUInt8 firstAscii
        simp only [utf8Bytes_cons, single, List.cons_append, List.head?_cons,
          Option.some.injEq]
        constructor
        · intro same
          rw [same] at firstByte
          exact Char.toNat_inj.mp (firstByte.symm.trans expectedByte)
        · rintro rfl
          rfl
      · simp only [utf8Bytes_cons, encoded, List.cons_append, List.head?_cons,
          Option.some.injEq]
        constructor
        · rintro rfl
          omega
        · rintro rfl
          omega

/-- There are as many digits in front of the bytes of a text as there are in
front of the text. -/
theorem length_takeWhile_isDigitByte (text : List Char) :
    ((utf8Bytes text).takeWhile isDigitByte).length =
      (text.takeWhile Char.isDigit).length := by
  induction text with
  | nil => rfl
  | cons first text textHypothesis =>
      rcases utf8EncodeChar_cases first with
        ⟨ascii, single⟩ | ⟨notAscii, lead, later, encoded, large⟩
      · have same : isDigitByte first.toUInt8 = first.isDigit := by
          rw [Bool.eq_iff_iff, isDigitByte_iff, isDigit_iff, toNat_toUInt8 ascii]
        simp only [utf8Bytes_cons, single, List.cons_append, List.nil_append,
          List.takeWhile_cons, same]
        split
        · simp only [List.length_cons, textHypothesis]
        · rfl
      · have noDigitByte : ¬ isDigitByte lead = true := by
          rw [isDigitByte_iff]
          omega
        have noDigit : ¬ first.isDigit = true := by
          rw [isDigit_iff]
          omega
        simp only [utf8Bytes_cons, encoded, List.cons_append,
          List.takeWhile_cons, if_neg noDigitByte, if_neg noDigit, List.length_nil]

/-- ASCII characters are one byte each. -/
theorem byteSize_eq_length
    {text : List Char}
    (ascii : ∀ character ∈ text, character.toNat ≤ 127) :
    byteSize text = text.length := by
  induction text with
  | nil => rfl
  | cons first text textHypothesis =>
      obtain ⟨firstAscii, later⟩ := List.forall_mem_cons.mp ascii
      have one : first.utf8Size = 1 := Char.utf8Size_eq_one_iff.mpr firstAscii
      rw [byteSize_cons, List.length_cons, textHypothesis later, one,
        Nat.add_comm]

end LineCalculator
