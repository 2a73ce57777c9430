import LineCalculator.Proofs.Expr.Writing
import LineCalculator.Proofs.Grammar.SpacedStatement
import LineCalculator.Proofs.Grammar.TreeShape

/-!
# Texts with few parentheses

The sparse text of a tree has parentheses only where the tree would be read as
another one without them: sums and products group to the left, powers to the
right, and only an operand is raised to a power. A sparse text is a spaced text
of a category that depends on the tree, and so it is read as the tree that it
was written for.
-/

namespace LineCalculator

namespace Operator

/-- Whether a tree stands between parentheses to the left of an operator. -/
def groupsLeft : Operator → Expr → Bool
  | .addition, _ | .subtraction, _ => false
  | .multiplication, operand | .division, operand | .modulus, operand =>
      operand.isSum
  | .exponentiation, operand => operand.isBinary || operand.isFunction

/-- Whether a tree stands between parentheses to the right of an operator. -/
def groupsRight : Operator → Expr → Bool
  | .addition, operand | .subtraction, operand => operand.isSum
  | .multiplication, operand | .division, operand | .modulus, operand
  | .exponentiation, operand => operand.isSum || operand.isProduct

end Operator

namespace Expr

/-- A text between parentheses where they are called for. -/
def enclose (grouped : Bool) (text : String) : String :=
  if grouped then "(" ++ text ++ ")" else text

/-- The text of a tree with one space on both sides of every operator and
parentheses only where they make a difference. -/
def sparseText : Expr → String
  | .literal value => Number.text value
  | .var name => name
  | .postStep name step => name ++ step.symbol
  | .binary operator left right =>
      enclose (operator.groupsLeft left) left.sparseText ++ " " ++
        operator.symbol ++ " " ++
        enclose (operator.groupsRight right) right.sparseText
  | .assignment target value => target ++ " = " ++ value.sparseText
  | .call function argument => function ++ "(" ++ argument.sparseText ++ ")"

end Expr

namespace Grammar

/-- The category of the sparse text of a tree. -/
def ofTree : Expr → Category
  | .literal _ | .var _ => .operand
  | .postStep _ _ | .call _ _ => .function
  | .binary operator _ _ => ofOperator operator
  | .assignment _ _ => .statement

variable
  {names : List String}
  {operator : Operator}
  {text leftText rightText : List Char}
  {tree left right : Expr}

theorem ofTree_eq_sum_iff : ofTree tree = .sum ↔ tree.isSum = true := by
  cases tree with
  | binary operator left right =>
      cases operator <;>
        simp [ofTree, ofOperator, Expr.isSum, Operator.additive]
  | _ => simp [ofTree, Expr.isSum]

theorem ofTree_eq_product_iff :
    ofTree tree = .product ↔ tree.isProduct = true := by
  cases tree with
  | binary operator left right =>
      cases operator <;>
        simp [ofTree, ofOperator, Expr.isProduct, Operator.multiplicative]
  | _ => simp [ofTree, Expr.isProduct]

namespace Spaced

/-- A tree that is no operation and no function is written as an operand. -/
theorem operand_of_tree
    (spaced : Spaced names (ofTree tree) text tree)
    (notBinary : tree.isBinary = false)
    (notFunction : tree.isFunction = false) :
    Spaced names .operand text tree := by
  cases tree with
  | literal value => exact spaced
  | var name => exact spaced
  | postStep name step => simp [Expr.isFunction] at notFunction
  | binary operator left right => simp [Expr.isBinary] at notBinary
  | assignment target value => nomatch spaced
  | call function argument => simp [Expr.isFunction] at notFunction

/-- A tree that is no sum and no product is written as a factor. -/
theorem factor_of_tree
    (spaced : Spaced names (ofTree tree) text tree)
    (notSum : tree.isSum = false)
    (notProduct : tree.isProduct = false) :
    Spaced names .factor text tree := by
  cases tree with
  | literal value => exact .operand spaced
  | var name => exact .operand spaced
  | postStep name step => exact .function spaced
  | binary operator left right =>
      cases operator with
      | exponentiation => exact spaced
      | addition | subtraction => simp [Expr.isSum, Operator.additive] at notSum
      | multiplication | division | modulus =>
          simp [Expr.isProduct, Operator.multiplicative] at notProduct
  | assignment target value => nomatch spaced
  | call function argument => exact .function spaced

/-- A tree that is no sum is written as a product. -/
theorem product_of_tree
    (spaced : Spaced names (ofTree tree) text tree)
    (notSum : tree.isSum = false) :
    Spaced names .product text tree := by
  rcases isProduct : tree.isProduct with _ | _
  · exact .oneFactor (spaced.factor_of_tree notSum isProduct)
  · rwa [ofTree_eq_product_iff.mpr isProduct] at spaced

/-- Every calculation is a sum of one or more terms. -/
theorem sum_of_tree (spaced : Spaced names (ofTree tree) text tree) :
    Spaced names .sum text tree := by
  rcases isSum : tree.isSum with _ | _
  · exact .oneTerm (spaced.product_of_tree isSum)
  · rwa [ofTree_eq_sum_iff.mpr isSum] at spaced

/-- Between parentheses every calculation is an operand. -/
theorem enclosed
    {text : String}
    (spaced : Spaced names (ofTree tree) text.toList tree) :
    Spaced names .operand (Expr.enclose true text).toList tree := by
  simpa [Expr.enclose] using Spaced.group spaced.sum_of_tree

/-- What stands to the left of an operator is of the category that is read
there. -/
theorem left_of_tree
    {text : String}
    (operator : Operator)
    (spaced : Spaced names (ofTree tree) text.toList tree) :
    Spaced names (leftOf operator)
      (Expr.enclose (operator.groupsLeft tree) text).toList tree := by
  rcases grouped : operator.groupsLeft tree with _ | _
  · cases operator with
    | addition | subtraction => exact spaced.sum_of_tree
    | multiplication | division | modulus =>
        exact spaced.product_of_tree grouped
    | exponentiation =>
        obtain ⟨notBinary, notFunction⟩ := Bool.or_eq_false_iff.mp grouped
        exact spaced.operand_of_tree notBinary notFunction
  · exact spaced.enclosed.left_of_operand

/-- What stands to the right of an operator is of the category that is read
there. -/
theorem right_of_tree
    {text : String}
    (operator : Operator)
    (spaced : Spaced names (ofTree tree) text.toList tree) :
    Spaced names (rightOf operator)
      (Expr.enclose (operator.groupsRight tree) text).toList tree := by
  rcases grouped : operator.groupsRight tree with _ | _
  · cases operator with
    | addition | subtraction => exact spaced.product_of_tree grouped
    | multiplication | division | modulus | exponentiation =>
        obtain ⟨notSum, notProduct⟩ := Bool.or_eq_false_iff.mp grouped
        exact spaced.factor_of_tree notSum notProduct
  · exact right_of_factor (.operand spaced.enclosed)

end Spaced

/-- The sparse text of a calculation is a spaced text that spells it. -/
theorem spaced_sparseText
    (shape : tree.IsCalculation names)
    (readsBack : tree.LiteralsReadBack) :
    Spaced names (ofTree tree) tree.sparseText.toList tree := by
  induction shape with
  | literal value =>
      obtain ⟨numeral, wellFormed, same, rfl⟩ :=
        Expr.literalsReadBack_literal.mp readsBack
      simpa [Expr.sparseText, ofTree, ← same] using Spaced.number wellFormed
  | var isIdentifier => exact .var isIdentifier
  | postStep bound step =>
      simpa [Expr.sparseText, ofTree] using Spaced.stepAfter bound step
  | binary operator _ _ leftHypothesis rightHypothesis =>
      obtain ⟨leftReadsBack, rightReadsBack⟩ :=
        Expr.literalsReadBack_binary.mp readsBack
      have leftSpaced := (leftHypothesis leftReadsBack).left_of_tree operator
      have rightSpaced :=
        (rightHypothesis rightReadsBack).right_of_tree operator
      have spaced := leftSpaced.binary rightSpaced
      simpa [Expr.sparseText, ofTree, operator.between_eq] using spaced
  | call function _ argumentHypothesis =>
      have argumentSpaced := argumentHypothesis readsBack
      simpa [Expr.sparseText, ofTree] using
        Spaced.call function argumentSpaced.sum_of_tree

end Grammar

namespace Statement

/-- The sparse text of every tree that can be a statement without steps before
names is read as that tree. -/
theorem parse?_sparseText
    (tree : Expr)
    (environment : Environment)
    (identifiers : ∀ name ∈ environment.names, Token.IsIdentifier name.toList)
    (shape : tree.IsStatement environment.names)
    (readsBack : tree.LiteralsReadBack) :
    parse? tree.sparseText environment = some ⟨tree, []⟩ := by
  cases shape with
  | calculation shape =>
      have spaced := Grammar.spaced_sparseText shape readsBack
      exact parse?_of_spaced identifiers spaced.sum_of_tree
  | assignment isIdentifier shape =>
      have spaced := Grammar.spaced_sparseText shape readsBack
      exact parse?_of_spaced_assignment identifiers spaced.sum_of_tree
        isIdentifier

/-- The sum to the left of the product, the step to the left of the power and
the difference to the right of the other one stand between parentheses, and
neither the product nor the power to the right of a power does. -/
theorem parse?_sparseText_of_mixed_operators :
    let environment : Environment := ⟨[⟨"a", 1.0⟩, ⟨"ab", 2.0⟩]⟩
    let sum : Expr := .binary .addition (.literal 1.5) (.var "a")
    let power : Expr := .binary .exponentiation (.postStep "ab" .increment)
      (.binary .exponentiation (.literal 2.0) (.var "a"))
    let difference : Expr :=
      .binary .subtraction (.call "sin" (.var "ab")) (.literal 3.0)
    let tree : Expr := .assignment "x"
      (.binary .subtraction (.binary .multiplication sum power) difference)
    (∀ name ∈ environment.names, Token.IsIdentifier name.toList) ∧
      tree.IsStatement environment.names ∧ tree.LiteralsReadBack ∧
      tree.sparseText = "x = (1.5 + a) * (ab++) ^ 2 ^ a - (sin(ab) - 3)" ∧
      parse? tree.sparseText environment = some ⟨tree, []⟩ := by
  intro environment sum power difference tree
  have identifiers :
      ∀ name ∈ environment.names, Token.IsIdentifier name.toList := by
    decide
  have sumShape : sum.IsCalculation environment.names :=
    .binary _ (.literal _) (.var (by decide))
  have powerShape : power.IsCalculation environment.names :=
    .binary _ (.postStep (by decide) _)
      (.binary _ (.literal _) (.var (by decide)))
  have differenceShape : difference.IsCalculation environment.names :=
    .binary _ (.call .sin (.var (by decide))) (.literal _)
  have shape : tree.IsStatement environment.names :=
    .assignment (by decide)
      (.binary _ (.binary _ sumShape powerShape) differenceShape)
  have readsBack : tree.LiteralsReadBack := by
    decide +kernel
  exact ⟨identifiers, shape, readsBack, by decide +kernel,
    parse?_sparseText tree environment identifiers shape readsBack⟩

end Statement

end LineCalculator
