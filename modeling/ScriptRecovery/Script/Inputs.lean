import ScriptRecovery.Script.Basic

/-!
# Placeholders

A template is an expression with placeholders `Expr.input i`.  This module lists the placeholders
of an expression in evaluation order and replaces them.

Replacement is simultaneous: what is put in place of a placeholder is not searched again.  The
places that are searched are the parts of an expression, `Expr.children`, from left to right.  The
parts of an assignment target are among them, the target itself is not an expression.
-/

namespace ScriptRecovery

/-- The expressions directly below an assignment target. -/
def Target.children : Target → List Expr
  | .member base key _ => [base, key]
  | .identifier .. | .register .. | .temporary .. => []

/-- The expressions directly below an expression, left to right. -/
def Expr.children : Expr → List Expr
  | .atom .. | .input _ => []
  | .unary _ argument _ => [argument]
  | .binary _ left right _ => [left, right]
  | .logical _ left right _ => [left, right]
  | .assignment _ target value _ => target.children ++ [value]
  | .member base key _ => [base, key]
  | .call callee arguments _ => callee :: arguments
  | .sequence expressions _ => expressions
  | .conditional test truthy falsy _ => [test, truthy, falsy]
  | .lookup name _ => [name]
  | .propertyName index _ => [index]
  | .initArray itemCount _ => [itemCount]
  | .initObject itemCount _ => [itemCount]

/-! ## Listing -/

mutual

/-- The indices of the placeholders of an expression, left to right, with repetition. -/
def Expr.inputs : Expr → List Nat
  | .atom .. => []
  | .input index => [index]
  | .unary _ argument _ => argument.inputs
  | .binary _ left right _ => left.inputs ++ right.inputs
  | .logical _ left right _ => left.inputs ++ right.inputs
  | .assignment _ target value _ => target.inputs ++ value.inputs
  | .member base key _ => base.inputs ++ key.inputs
  | .call callee arguments _ => callee.inputs ++ Expr.inputsAll arguments
  | .sequence expressions _ => Expr.inputsAll expressions
  | .conditional test truthy falsy _ => test.inputs ++ truthy.inputs ++ falsy.inputs
  | .lookup name _ => name.inputs
  | .propertyName index _ => index.inputs
  | .initArray itemCount _ => itemCount.inputs
  | .initObject itemCount _ => itemCount.inputs

/-- The indices of the placeholders of a target. -/
def Target.inputs : Target → List Nat
  | .member base key _ => base.inputs ++ key.inputs
  | .identifier .. | .register .. | .temporary .. => []

/-- The indices of the placeholders of expressions in order. -/
def Expr.inputsAll : List Expr → List Nat
  | [] => []
  | e :: es => e.inputs ++ Expr.inputsAll es

end

/-! ## Replacement -/

mutual

/-- Replaces every placeholder that `resolve` has an expression for. -/
def Expr.substitute (resolve : Nat → Option Expr) : Expr → Expr
  | .atom a loc => .atom a loc
  | .input index => (resolve index).getD (.input index)
  | .unary op argument loc => .unary op (argument.substitute resolve) loc
  | .binary op left right loc =>
      .binary op (left.substitute resolve) (right.substitute resolve) loc
  | .logical op left right loc =>
      .logical op (left.substitute resolve) (right.substitute resolve) loc
  | .assignment op target value loc =>
      .assignment op (target.substitute resolve) (value.substitute resolve) loc
  | .member base key loc => .member (base.substitute resolve) (key.substitute resolve) loc
  | .call callee arguments loc =>
      .call (callee.substitute resolve) (Expr.substituteAll resolve arguments) loc
  | .sequence expressions loc => .sequence (Expr.substituteAll resolve expressions) loc
  | .conditional test truthy falsy loc =>
      .conditional (test.substitute resolve) (truthy.substitute resolve)
        (falsy.substitute resolve) loc
  | .lookup name loc => .lookup (name.substitute resolve) loc
  | .propertyName index loc => .propertyName (index.substitute resolve) loc
  | .initArray itemCount loc => .initArray (itemCount.substitute resolve) loc
  | .initObject itemCount loc => .initObject (itemCount.substitute resolve) loc

/-- Replaces the placeholders of a target. -/
def Target.substitute (resolve : Nat → Option Expr) : Target → Target
  | .member base key loc => .member (base.substitute resolve) (key.substitute resolve) loc
  | .identifier name loc => .identifier name loc
  | .register index loc => .register index loc
  | .temporary id loc => .temporary id loc

/-- Replaces the placeholders of every expression of a list. -/
def Expr.substituteAll (resolve : Nat → Option Expr) : List Expr → List Expr
  | [] => []
  | e :: es => e.substitute resolve :: Expr.substituteAll resolve es

end

end ScriptRecovery
