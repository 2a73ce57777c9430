/-!
# Numbers

Numbers are binary64. A decimal is a natural significand scaled by a power of
ten; it is what a numeral denotes before rounding and what is chosen to write a
number.

A numeral is digits, an optional fraction that may be empty after its point,
and an optional exponent that has at least one digit. Reading takes the longest
numeral at the front of a text: an exponent mark without digits is not part of
it and stays in the text.

Every number is written positionally. Its decimal has the fewest digits among
those that read back as that number, and of several such decimals it is the
nearest. The search runs over the grids of multiples of a power of ten, from
the coarsest, and looks on each grid at the two neighbours of the number. All
comparisons are between natural numbers. Zero keeps its sign. The three values
that are no numerals are written `NaN`, `inf` and `-inf`.

The remainder of a division rounds the quotient toward zero. It has the sign of
the dividend and is exact, since it is a multiple of the smaller unit of the two
numbers.
-/

namespace LineCalculator

/-- The number `significand · 10 ^ exponent`. -/
structure Decimal where
  significand : Nat
  exponent : Int
  deriving DecidableEq

namespace Decimal

/-- The binary64 number nearest to a decimal, a half going to the even
neighbour. Too large a decimal gives infinity and too small a one zero. -/
def toFloat (decimal : Decimal) : Float :=
  ⟨Float.Model.ofScientific decimal.significand decimal.exponent⟩

/-- The digits of a natural number, the most significant first. -/
def digits (number : Nat) : List Char :=
  Nat.toDigits 10 number

/-- Positional notation. A decimal with a negative exponent has that many
places after the point and at least one digit before it; any other decimal is
written as a whole number, without a point. -/
def positional (decimal : Decimal) : List Char :=
  let digits := digits decimal.significand
  if 0 ≤ decimal.exponent then
    digits ++ List.replicate decimal.exponent.toNat '0'
  else
    let places := (-decimal.exponent).toNat
    let padded := List.replicate (places + 1 - digits.length) '0' ++ digits
    let wholeLength := padded.length - places
    padded.take wholeLength ++ '.' :: padded.drop wholeLength

end Decimal

/-- The reals that round to one number, measured in multiples of
`2 ^ unitExponent`. The ends belong to the interval when it is closed. -/
structure RoundingInterval where
  lower : Nat
  middle : Nat
  upper : Nat
  unitExponent : Int
  closed : Bool

namespace RoundingInterval

/-- The interval of `mantissa · 2 ^ exponent`. It reaches half way to both
neighbours. The lower neighbour of a power of two is nearer, except at the
smallest exponent. A half goes to the even mantissa, so the interval of an even
mantissa has its ends. -/
def ofFinite (mantissa : Nat) (exponent : Int) : RoundingInterval where
  lower :=
    if mantissa = Nat.pow 2 52 ∧ -1074 < exponent then 4 * mantissa - 1
    else 4 * mantissa - 2
  middle := 4 * mantissa
  upper := 4 * mantissa + 2
  unitExponent := exponent - 2
  closed := mantissa % 2 = 0

/-- With the unit of the interval equal to `numerator / denominator` steps of
the grid `10 ^ place`, this is the numerator. -/
def gridNumerator (interval : RoundingInterval) (place : Int) : Nat :=
  Nat.pow 2 interval.unitExponent.toNat * Nat.pow 10 (-place).toNat

/-- The denominator that belongs to `gridNumerator`. -/
def gridDenominator (interval : RoundingInterval) (place : Int) : Nat :=
  Nat.pow 2 (-interval.unitExponent).toNat * Nat.pow 10 place.toNat

/-- Whether `multiple · 10 ^ place` lies in the interval. -/
def contains (interval : RoundingInterval) (place : Int) (multiple : Nat) : Bool :=
  let numerator := interval.gridNumerator place
  let point := multiple * interval.gridDenominator place
  if interval.closed then
    interval.lower * numerator ≤ point && point ≤ interval.upper * numerator
  else
    interval.lower * numerator < point && point < interval.upper * numerator

/-- The point of the grid `10 ^ place` in the interval that is nearest to the
middle, an exact tie going up; `none` when neither neighbour of the middle on
the grid lies in the interval. -/
def nearestOnGrid? (interval : RoundingInterval) (place : Int) : Option Decimal :=
  let numerator := interval.gridNumerator place
  let denominator := interval.gridDenominator place
  let below := interval.middle * numerator / denominator
  let above := below + 1
  let belowIsNearer :=
    2 * (interval.middle * numerator) < (below + above) * denominator
  match interval.contains place below, interval.contains place above with
  | true, true => some ⟨if belowIsNearer then below else above, place⟩
  | true, false => some ⟨below, place⟩
  | false, true => some ⟨above, place⟩
  | false, false => none

/-- The point found on the coarsest grid that has one, among the given number
of grids from `10 ^ place` down. -/
def coarsest? (interval : RoundingInterval) : Nat → Int → Option Decimal
  | 0, _ => none
  | grids + 1, place =>
      (interval.nearestOnGrid? place).or (interval.coarsest? grids (place - 1))

end RoundingInterval

namespace Decimal

/-- The decimal equal to `mantissa · 2 ^ exponent`. -/
def exact (mantissa : Nat) (exponent : Int) : Decimal :=
  if 0 ≤ exponent then ⟨mantissa * Nat.pow 2 exponent.toNat, 0⟩
  else ⟨mantissa * Nat.pow 5 (-exponent).toNat, exponent⟩

/-- A power of ten that is not below `mantissa · 2 ^ exponent`: the binary
logarithm times an upper bound of the decimal logarithm of two. -/
def leadingPlace (mantissa : Nat) (exponent : Int) : Int :=
  (mantissa.log2 + 1 + exponent) * 30103 / 100000 + 1

/-- The decimal that is written for `mantissa · 2 ^ exponent`. Seventeen digits
always suffice, so the search meets a hit among twenty grids; the exact value
stands in where there is none. -/
def shortest (mantissa : Nat) (exponent : Int) : Decimal :=
  ((RoundingInterval.ofFinite mantissa exponent).coarsest? 20
    (leadingPlace mantissa exponent)).getD (exact mantissa exponent)

end Decimal

/-- The sign in front of the digits of an exponent. -/
inductive ExponentSign
  | absent
  | plus
  | minus
  deriving DecidableEq

namespace ExponentSign

/-- The characters of an exponent's sign. -/
def characters : ExponentSign → List Char
  | .absent => []
  | .plus => ['+']
  | .minus => ['-']

/-- Read an exponent's sign, which is absent from a text that starts otherwise. -/
def read : List Char → ExponentSign × List Char
  | '+' :: rest => (.plus, rest)
  | '-' :: rest => (.minus, rest)
  | text => (.absent, text)

end ExponentSign

namespace Numeral

/-- The exponent of a numeral as it is written. -/
structure Exponent where
  mark : Char
  sign : ExponentSign
  digits : List Char
  deriving DecidableEq

namespace Exponent

/-- The characters of an exponent. -/
def characters (exponent : Exponent) : List Char :=
  exponent.mark :: (exponent.sign.characters ++ exponent.digits)

/-- An exponent starts with `e` or `E` and has at least one digit. -/
def WellFormed (exponent : Exponent) : Prop :=
  (exponent.mark = 'e' ∨ exponent.mark = 'E') ∧
    exponent.digits ≠ [] ∧ ∀ digit ∈ exponent.digits, digit.isDigit = true

/-- Read an exponent whose digits are all that follow its mark and sign. -/
def read? : List Char → Option (Exponent × List Char)
  | [] => none
  | mark :: text =>
      if mark = 'e' ∨ mark = 'E' then
        let (sign, text) := ExponentSign.read text
        let digits := text.takeWhile Char.isDigit
        if digits.isEmpty then none
        else some (⟨mark, sign, digits⟩, text.dropWhile Char.isDigit)
      else none

end Exponent

end Numeral

/-- A numeral as it is written. -/
structure Numeral where
  whole : List Char
  fraction : Option (List Char)
  exponent : Option Numeral.Exponent
  deriving DecidableEq

namespace Numeral

/-- The characters of a fraction, with its point. -/
def fractionCharacters : Option (List Char) → List Char
  | none => []
  | some digits => '.' :: digits

/-- The characters of a numeral. -/
def characters (numeral : Numeral) : List Char :=
  numeral.whole ++ fractionCharacters numeral.fraction ++
    (numeral.exponent.map Exponent.characters).getD []

/-- A numeral has at least one digit in front, digits only in its fraction and
a well-formed exponent. -/
def WellFormed (numeral : Numeral) : Prop :=
  numeral.whole ≠ [] ∧
    (∀ digit ∈ numeral.whole, digit.isDigit = true) ∧
    (∀ digits ∈ numeral.fraction, ∀ digit ∈ digits, digit.isDigit = true) ∧
    ∀ exponent ∈ numeral.exponent, exponent.WellFormed

/-- Read a fraction, whose digits are all that follow the point. -/
def readFraction : List Char → Option (List Char) × List Char
  | '.' :: text =>
      (some (text.takeWhile Char.isDigit), text.dropWhile Char.isDigit)
  | text => (none, text)

/-- Read the longest numeral at the front of a text. -/
def read? (text : List Char) : Option (Numeral × List Char) :=
  let whole := text.takeWhile Char.isDigit
  if whole.isEmpty then none
  else
    let (fraction, text) := readFraction (text.dropWhile Char.isDigit)
    match Exponent.read? text with
    | some (exponent, rest) => some (⟨whole, fraction, some exponent⟩, rest)
    | none => some (⟨whole, fraction, none⟩, text)

/-- The natural number that digits denote. -/
def digitsValue (digits : List Char) : Nat :=
  digits.foldl (fun number digit => 10 * number + (digit.toNat - '0'.toNat)) 0

/-- The power of ten that an exponent denotes. -/
def Exponent.value (exponent : Exponent) : Int :=
  match exponent.sign with
  | .minus => -(digitsValue exponent.digits : Int)
  | _ => digitsValue exponent.digits

/-- The decimal that a numeral denotes: the digits of both parts, scaled by the
exponent less the number of places. -/
def decimal (numeral : Numeral) : Decimal :=
  let places := numeral.fraction.getD []
  ⟨digitsValue (numeral.whole ++ places),
    (numeral.exponent.map Exponent.value).getD 0 - places.length⟩

/-- The number that a numeral denotes. -/
def toFloat (numeral : Numeral) : Float :=
  numeral.decimal.toFloat

end Numeral

namespace Number

/-- What is written in front of a number of the given sign. -/
def signText : Float.Model.UnpackedFloat.Sign → List Char
  | .positive => []
  | .negative => ['-']

/-- The characters written for a number. -/
def characters (value : Float) : List Char :=
  match value.toModel.unpack with
  | .notANumber => ['N', 'a', 'N']
  | .infinity sign => signText sign ++ ['i', 'n', 'f']
  | .zero sign => signText sign ++ ['0']
  | .finite sign mantissa exponent _ =>
      signText sign ++ (Decimal.shortest mantissa exponent).positional

/-- The text written for a number. -/
def text (value : Float) : String :=
  String.ofList (characters value)

@[simp] theorem toList_text (value : Float) :
    (text value).toList = characters value := by
  simp [text]

open Float.Model (UnpackedFloat)

/-- The remainder on unpacked numbers. There is none of an infinite dividend or
by a zero divisor; an infinite divisor leaves a finite dividend as it is. -/
def unpackedRemainder : UnpackedFloat → UnpackedFloat → UnpackedFloat
  | .notANumber, _ => .notANumber
  | _, .notANumber => .notANumber
  | .infinity _, _ => .notANumber
  | _, .zero _ => .notANumber
  | .zero sign, _ => .zero sign
  | dividend, .infinity _ => dividend
  | .finite sign mantissa exponent _, .finite _ mantissa' exponent' _ =>
      let unit := min exponent exponent'
      let rest :=
        (mantissa <<< (exponent - unit).toNat) %
          (mantissa' <<< (exponent' - unit).toNat)
      .round .binary64 sign rest unit

/-- The remainder of `dividend` divided by `divisor`. -/
def remainder (dividend divisor : Float) : Float :=
  ⟨Float.Model.pack
    (unpackedRemainder dividend.toModel.unpack divisor.toModel.unpack)⟩

end Number

end LineCalculator
