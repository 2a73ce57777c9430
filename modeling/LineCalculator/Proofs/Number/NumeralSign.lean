import LineCalculator.Number
import Mathlib.Algebra.Group.Nat.Defs

/-!
# Signs of numerals

A numeral has no sign. The number nearest to the decimal that it denotes is
positive or zero, or infinite when the decimal is too large, and its sign bit is
clear in all three cases. It is a number in all of them as well.

Both are shown of the unpacked number first. Packing it keeps the sign, and sets
all bits of the exponent for infinity only, where those of the mantissa are
clear; all bits of the exponent together with one of the mantissa would make a
number unpack as none.
-/

namespace LineCalculator

open Float.Model (UnpackedFloat Format)
open Float.Model.UnpackedFloat (Accuracy packComponents pack unpack
  unpackExponent unpackExponent_packComponents unpackMantissa
  unpackMantissa_packComponents)

namespace Number

/-- Whether the sign bit of a number is set. -/
def signBit (value : Float) : Bool :=
  value.toBits.toBitVec.msb

/-- A positive number, zero or infinity without a sign in front. -/
def IsUnsigned : UnpackedFloat → Prop
  | .notANumber => False
  | .infinity sign | .zero sign | .finite sign _ _ _ => sign = .positive

/-- A number, unlike the value that stands for none. -/
def IsNumber (value : UnpackedFloat) : Prop :=
  value.isNaN = false

variable {format : Format}

/-- A choice has a property that both of its alternatives have. -/
theorem dite_cases
    {condition : Prop}
    [Decidable condition]
    {motive : UnpackedFloat → Prop}
    {first : condition → UnpackedFloat}
    {second : ¬ condition → UnpackedFloat}
    (isFirst : ∀ holds, motive (first holds))
    (isSecond : ∀ fails, motive (second fails)) :
    motive (if holds : condition then first holds else second holds) := by
  by_cases holds : condition
  · rw [dif_pos holds]
    exact isFirst holds
  · rw [dif_neg holds]
    exact isSecond holds

/-- Rounding a number without a sign gives one without a sign. -/
theorem isUnsigned_roundWithAccuracy
    (mantissa : Nat)
    (exponent : Int)
    (accuracy : Accuracy) :
    IsUnsigned
      (.roundWithAccuracy format .positive mantissa exponent accuracy) := by
  unfold Float.Model.UnpackedFloat.roundWithAccuracy
  exact dite_cases (motive := IsUnsigned) (fun _ => rfl) fun _ => rfl

/-- A decimal is rounded to a number without a sign. -/
theorem isUnsigned_ofScientific (significand : Nat) (exponent : Int) :
    IsUnsigned (.ofScientific format significand exponent) := by
  unfold Float.Model.UnpackedFloat.ofScientific
  refine dite_cases (motive := IsUnsigned) (fun _ => rfl) fun nonzero => ?_
  refine iteInduction (fun tooLarge => rfl) fun _ => ?_
  refine iteInduction (fun tooSmall => rfl) fun _ => ?_
  refine iteInduction (fun multiplied => ?_) fun divided => ?_
  · exact isUnsigned_roundWithAccuracy _ _ _
  · exact isUnsigned_roundWithAccuracy _ _ _

/-- Not all bits of an exponent are set when the next one fits as well. -/
theorem ofNat_ne_allOnes
    {width number : Nat}
    (fits : number + 1 < 2 ^ width) :
    BitVec.ofNat width number ≠ -1#_ := by
  intro same
  have numbers := congrArg BitVec.toNat same
  rw [BitVec.neg_one_eq_allOnes, BitVec.toNat_ofNat, BitVec.toNat_allOnes,
    Nat.mod_eq_of_lt (by omega)] at numbers
  omega

/-- A packed number without a sign has a clear sign bit, and all bits of its
exponent are set only if its mantissa is clear. -/
theorem IsUnsigned.exists_packComponents
    {value : UnpackedFloat}
    (isUnsigned : IsUnsigned value) :
    ∃ exponent mantissa,
      pack format value = packComponents format .positive exponent mantissa ∧
        (exponent = -1#_ → mantissa = 0#_) := by
  cases value with
  | notANumber => exact isUnsigned.elim
  | infinity sign =>
      cases isUnsigned
      exact ⟨_, _, rfl, fun _ => rfl⟩
  | zero sign =>
      cases isUnsigned
      exact ⟨_, _, rfl, fun _ => rfl⟩
  | finite sign mantissa exponent positive =>
      cases isUnsigned
      unfold pack
      dsimp only
      split
      · exact ⟨_, _, rfl, fun _ => rfl⟩
      · next fits =>
          split
          · exact ⟨_, _, rfl, fun full =>
              absurd full (ofNat_ne_allOnes (by omega))⟩
          · have roomForOne := Nat.one_lt_two_pow (Nat.ne_of_gt format.he)
            exact ⟨_, _, rfl, fun full =>
              absurd full (ofNat_ne_allOnes roomForOne)⟩

/-- Bits unpack as a number unless all bits of the exponent are set and one of
the mantissa. -/
theorem isNumber_unpack
    {bits : BitVec format.numBits}
    (clear : unpackExponent bits = -1#_ → unpackMantissa bits = 0#_) :
    IsNumber (unpack format bits) := by
  unfold unpack
  by_cases full : unpackExponent bits = -1#_
  · rw [if_pos full, if_pos (clear full)]
    rfl
  · rw [if_neg full]
    refine iteInduction (motive := IsNumber) (fun subnormal => ?_) fun normal => rfl
    exact dite_cases (motive := IsNumber) (fun _ => rfl) fun _ => rfl

/-- The sign bit is the first one of a packed number. -/
theorem msb_packComponents
    {exponent : BitVec format.exponentBits}
    {mantissa : BitVec format.mantissaBitsWithoutImplicit} :
    (packComponents format .positive exponent mantissa).msb = false := by
  simp [packComponents, BitVec.msb_append,
    Float.Model.UnpackedFloat.Sign.toBitVec]

end Number

/-- A numeral denotes a number, and one whose sign bit is clear. -/
theorem Numeral.toFloat_unsigned (numeral : Numeral) :
    numeral.toFloat.isNaN = false ∧ Number.signBit numeral.toFloat = false := by
  have isUnsigned : Number.IsUnsigned (.ofScientific .binary64
      numeral.decimal.significand numeral.decimal.exponent) :=
    Number.isUnsigned_ofScientific _ _
  obtain ⟨exponent, mantissa, packed, clear⟩ :=
    @Number.IsUnsigned.exists_packComponents .binary64 _ isUnsigned
  have bits : numeral.toFloat.toBits.toBitVec =
      packComponents .binary64 .positive exponent mantissa := packed
  constructor
  · change (unpack .binary64 numeral.toFloat.toBits.toBitVec).isNaN = false
    rw [bits]
    apply Number.isNumber_unpack
    rwa [unpackExponent_packComponents, unpackMantissa_packComponents]
  · rw [Number.signBit, bits]
    exact Number.msb_packComponents

end LineCalculator
