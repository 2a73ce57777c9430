import LineCalculator.Environment

/-!
# Expressions

The tree of a statement. A step after a name yields the value before it, and an
assignment yields the value assigned. A call names its function; the grammar
only builds calls of known functions, but a tree may name any.

In the text of an expression every binary operation is written between
parentheses and with one space on both sides of its symbol; an assignment has no
parentheses. Evaluating an expression gives its value and the environment that
it leaves. The left operand is evaluated before the right one, and the value of
an assignment before its target is recorded. Evaluation never fails.
-/

namespace LineCalculator

/-- A calculation or an assignment. -/
inductive Expr
  | literal (value : Float)
  | var (name : String)
  | postStep (name : String) (step : Step)
  | binary (operator : Operator) (left right : Expr)
  | assignment (target : String) (value : Expr)
  | call (function : String) (argument : Expr)
  deriving DecidableEq

namespace Expr

/-- The text of an expression. -/
def text : Expr → String
  | .literal value => Number.text value
  | .var name => name
  | .postStep name step => name ++ step.symbol
  | .binary operator left right =>
      "(" ++ left.text ++ " " ++ operator.symbol ++ " " ++ right.text ++ ")"
  | .assignment target value => target ++ " = " ++ value.text
  | .call function argument => function ++ "(" ++ argument.text ++ ")"

@[simp] theorem text_literal (value : Float) :
    (literal value).text = Number.text value := rfl

@[simp] theorem text_var (name : String) : (var name).text = name := rfl

@[simp] theorem text_postStep
    (name : String)
    (step : Step) :
    (postStep name step).text = name ++ step.symbol := rfl

@[simp] theorem text_binary
    (operator : Operator)
    (left right : Expr) :
    (binary operator left right).text =
      "(" ++ left.text ++ " " ++ operator.symbol ++ " " ++ right.text ++
        ")" := rfl

@[simp] theorem text_assignment
    (target : String)
    (value : Expr) :
    (assignment target value).text = target ++ " = " ++ value.text := rfl

@[simp] theorem text_call
    (function : String)
    (argument : Expr) :
    (call function argument).text = function ++ "(" ++ argument.text ++ ")" :=
  rfl

/-- The value of an expression and the environment it leaves. -/
def eval : Expr → Environment → Float × Environment
  | .literal value, environment => (value, environment)
  | .var name, environment => (environment.lookup name, environment)
  | .postStep name step, environment =>
      (environment.lookup name, environment.applyStep name step)
  | .binary operator left right, environment =>
      let (leftValue, environment) := left.eval environment
      let (rightValue, environment) := right.eval environment
      (operator.apply leftValue rightValue, environment)
  | .assignment target value, environment =>
      let (value, environment) := value.eval environment
      (value, environment.record target value)
  | .call function argument, environment =>
      let (value, environment) := argument.eval environment
      (MathFunction.applyNamed function value, environment)

@[simp] theorem eval_literal
    (value : Float)
    (environment : Environment) :
    (literal value).eval environment = (value, environment) := rfl

@[simp] theorem eval_var
    (name : String)
    (environment : Environment) :
    (var name).eval environment = (environment.lookup name, environment) := rfl

@[simp] theorem eval_postStep
    (name : String)
    (step : Step)
    (environment : Environment) :
    (postStep name step).eval environment =
      (environment.lookup name, environment.applyStep name step) := rfl

@[simp] theorem eval_binary
    (operator : Operator)
    (left right : Expr)
    (environment : Environment) :
    (binary operator left right).eval environment =
      (operator.apply (left.eval environment).1
          (right.eval (left.eval environment).2).1,
        (right.eval (left.eval environment).2).2) := rfl

@[simp] theorem eval_assignment
    (target : String)
    (value : Expr)
    (environment : Environment) :
    (assignment target value).eval environment =
      ((value.eval environment).1,
        (value.eval environment).2.record target (value.eval environment).1) :=
  rfl

@[simp] theorem eval_call
    (function : String)
    (argument : Expr)
    (environment : Environment) :
    (call function argument).eval environment =
      (MathFunction.applyNamed function (argument.eval environment).1,
        (argument.eval environment).2) := rfl

end Expr

end LineCalculator
