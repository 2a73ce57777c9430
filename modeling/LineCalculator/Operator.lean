import LineCalculator.Number

/-!
# Steps, operators and functions

A step adds one to a variable or takes one from it. An operator combines two
values. Every operator has a symbol, and a second one that combines it with an
assignment. Division and modulus by zero give zero. A function has one argument
and is called by its name. Angles are in radians, and an argument outside the
domain of a function gives no number.
-/

namespace LineCalculator

/-- A change of a variable by one. -/
inductive Step
  | increment
  | decrement
  deriving DecidableEq

namespace Step

/-- The steps in the order in which their symbols are tried. -/
def all : List Step :=
  [increment, decrement]

theorem mem_all (step : Step) : step ∈ all := by
  cases step <;> decide

/-- The symbol written next to the variable. -/
def symbol : Step → String
  | .increment => "++"
  | .decrement => "--"

/-- The word for a step. -/
def name : Step → String
  | .increment => "increment"
  | .decrement => "decrement"

/-- The value of a variable after a step. -/
def apply : Step → Float → Float
  | .increment, value => value + 1.0
  | .decrement, value => value - 1.0

/-- The step that a symbol stands for. -/
def ofSymbol? (text : String) : Option Step :=
  all.find? fun step => step.symbol = text

@[simp] theorem ofSymbol?_symbol (step : Step) :
    ofSymbol? step.symbol = some step := by
  cases step <;> decide

end Step

/-- An arithmetic operator between two values. -/
inductive Operator
  | addition
  | subtraction
  | multiplication
  | division
  | exponentiation
  | modulus
  deriving DecidableEq

namespace Operator

/-- The operators in the order in which compound assignments are tried. -/
def all : List Operator :=
  [addition, subtraction, multiplication, division, exponentiation, modulus]

theorem mem_all (operator : Operator) : operator ∈ all := by
  cases operator <;> decide

/-- The operators between the terms of a sum. -/
def additive : List Operator :=
  [addition, subtraction]

/-- The operators between the factors of a product. -/
def multiplicative : List Operator :=
  [multiplication, division, modulus]

/-- The symbol written between the operands. -/
def symbol : Operator → String
  | .addition => "+"
  | .subtraction => "-"
  | .multiplication => "*"
  | .division => "/"
  | .exponentiation => "^"
  | .modulus => "%"

/-- The symbol that assigns the result to the left operand. -/
def compoundSymbol : Operator → String
  | .addition => "+="
  | .subtraction => "-="
  | .multiplication => "*="
  | .division => "/="
  | .exponentiation => "^="
  | .modulus => "%="

/-- The word for an operator. -/
def name : Operator → String
  | .addition => "addition"
  | .subtraction => "subtraction"
  | .multiplication => "multiplication"
  | .division => "division"
  | .exponentiation => "exponentiation"
  | .modulus => "modulus"

/-- The value of an operation. A zero of either sign as the right operand makes
the value of a division or modulus zero. -/
def apply : Operator → Float → Float → Float
  | .addition, left, right => left + right
  | .subtraction, left, right => left - right
  | .multiplication, left, right => left * right
  | .division, left, right => if right == 0.0 then 0.0 else left / right
  | .exponentiation, left, right => left.pow right
  | .modulus, left, right =>
      if right == 0.0 then 0.0 else Number.remainder left right

/-- The operator that a symbol stands for. -/
def ofSymbol? (text : String) : Option Operator :=
  all.find? fun operator => operator.symbol = text

@[simp] theorem ofSymbol?_symbol (operator : Operator) :
    ofSymbol? operator.symbol = some operator := by
  cases operator <;> decide

end Operator

/-- A function of one number. -/
inductive MathFunction
  | sin
  | asin
  | cos
  | acos
  | tan
  | atan
  | ceil
  | floor
  deriving DecidableEq

namespace MathFunction

/-- The functions in the order in which their names are tried. -/
def all : List MathFunction :=
  [sin, asin, cos, acos, tan, atan, ceil, floor]

theorem mem_all (function : MathFunction) : function ∈ all := by
  cases function <;> decide

/-- The name by which a statement calls a function. -/
def name : MathFunction → String
  | .sin => "sin"
  | .asin => "asin"
  | .cos => "cos"
  | .acos => "acos"
  | .tan => "tan"
  | .atan => "atan"
  | .ceil => "ceil"
  | .floor => "floor"

/-- The value of a function. -/
def apply : MathFunction → Float → Float
  | .sin => Float.sin
  | .asin => Float.asin
  | .cos => Float.cos
  | .acos => Float.acos
  | .tan => Float.tan
  | .atan => Float.atan
  | .ceil => Float.ceil
  | .floor => Float.floor

/-- The function of a name. -/
def ofName? (name : String) : Option MathFunction :=
  all.find? fun function => function.name = name

@[simp] theorem ofName?_name (function : MathFunction) :
    ofName? function.name = some function := by
  cases function <;> decide

/-- The value of the function of a name. A name of no function has the value
zero everywhere. -/
def applyNamed (name : String) (value : Float) : Float :=
  match ofName? name with
  | some function => function.apply value
  | none => 0.0

@[simp] theorem applyNamed_name
    (function : MathFunction)
    (value : Float) :
    applyNamed function.name value = function.apply value := by
  simp [applyNamed]

end MathFunction

end LineCalculator
