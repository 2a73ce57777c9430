import LineCalculator.Expr
import LineCalculator.Number
import LineCalculator.Proofs.Number.NumeralReading

/-!
# Writing trees

What the texts of trees depend on. Where parentheses have to stand depends on
the kinds of the operations. A literal can be written only if it reads back: the
texts of negative numbers and of the values that are no numbers are not
numerals.
-/

namespace LineCalculator

namespace Expr

/-- Whether a tree is an addition or a subtraction. -/
def isSum : Expr → Bool
  | .binary operator _ _ => operator ∈ Operator.additive
  | _ => false

/-- Whether a tree is a multiplication, a division or a modulus. -/
def isProduct : Expr → Bool
  | .binary operator _ _ => operator ∈ Operator.multiplicative
  | _ => false

/-- Whether a tree is an operation on two operands. -/
def isBinary : Expr → Bool
  | .binary _ _ _ => true
  | _ => false

/-- Whether a tree is a step after a name or a call. -/
def isFunction : Expr → Bool
  | .postStep _ _ | .call _ _ => true
  | _ => false

/-- The numbers in a tree, in the order of its text. -/
def literals : Expr → List Float
  | .literal value => [value]
  | .var _ | .postStep _ _ => []
  | .binary _ left right => left.literals ++ right.literals
  | .assignment _ value => value.literals
  | .call _ argument => argument.literals

end Expr

namespace Number

/-- The text of a number is a numeral that denotes the same number. -/
def ReadsBack (value : Float) : Prop :=
  ∃ numeral : Numeral, numeral.WellFormed ∧
    numeral.characters = characters value ∧ numeral.toFloat = value

/-- A number reads back when its characters are a numeral for it, with nothing
left over. -/
theorem readsBack_iff_read? {value : Float} :
    ReadsBack value ↔
      (Numeral.read? (characters value)).map (Prod.map Numeral.toFloat id) =
        some (value, []) := by
  constructor
  · rintro ⟨numeral, wellFormed, same, rfl⟩
    have read : Numeral.read? (numeral.characters ++ []) = some (numeral, []) :=
      Numeral.read?_characters_append wellFormed (by simp [Token.Stops])
        (by simp)
    rw [← same, ← List.append_nil numeral.characters, read]
    rfl
  · intro read
    obtain ⟨⟨numeral, rest⟩, found, equal⟩ := Option.map_eq_some_iff.mp read
    obtain ⟨denotes, rfl⟩ := Prod.mk.inj equal
    have whole := Numeral.characters_append_of_read? found
    rw [List.append_nil] at whole
    exact ⟨numeral, Numeral.wellFormed_of_read? found, whole, denotes⟩

instance : DecidablePred ReadsBack :=
  fun _ => decidable_of_iff _ readsBack_iff_read?.symm

end Number

/-- All numbers in a tree read back from their texts. -/
def Expr.LiteralsReadBack (tree : Expr) : Prop :=
  ∀ value ∈ tree.literals, Number.ReadsBack value

instance : DecidablePred Expr.LiteralsReadBack :=
  fun tree => List.decidableBAll Number.ReadsBack tree.literals

namespace Expr

@[simp] theorem literalsReadBack_literal {value : Float} :
    (literal value).LiteralsReadBack ↔ Number.ReadsBack value := by
  simp [LiteralsReadBack, literals]

@[simp] theorem literalsReadBack_binary
    {operator : Operator}
    {left right : Expr} :
    (binary operator left right).LiteralsReadBack ↔
      left.LiteralsReadBack ∧ right.LiteralsReadBack := by
  simp [LiteralsReadBack, literals, or_imp, forall_and]

@[simp] theorem literalsReadBack_assignment
    {target : String}
    {value : Expr} :
    (assignment target value).LiteralsReadBack ↔ value.LiteralsReadBack :=
  Iff.rfl

@[simp] theorem literalsReadBack_call
    {function : String}
    {argument : Expr} :
    (call function argument).LiteralsReadBack ↔ argument.LiteralsReadBack :=
  Iff.rfl

end Expr

end LineCalculator
