import ScriptRecovery.Fault
import ScriptRecovery.Script.Inputs

/-!
# Templates

A template stands for a piece of stack code that takes some values off the operand stack, builds
one expression of them, and puts the expression back or drops its value.  Its placeholders number
the values it takes from the deepest, `Expr.input 0`, to the top.

Two templates in a row are one template when the first leaves a value that the second takes.
The second template's top value is then the first one's expression.  Its other values lie below
those the first one takes, so the placeholders of the first one move up by their number.
-/

namespace ScriptRecovery

/-- An expression over the topmost values of the stack. -/
structure Template where
  /-- The number of values taken. -/
  inputs : Nat
  /-- The expression. -/
  expr : Expr
  /-- Whether the value of the expression is dropped. -/
  void : Bool

namespace Template

/-- The template that takes nothing and leaves an expression. -/
def value (expr : Expr) : Template := ⟨0, expr, false⟩

/-- An expression with every placeholder moved up. -/
def shiftInputs (shift : Nat) (expr : Expr) : Expr :=
  if shift = 0 then expr else expr.substitute fun i => some (.input (i + shift))

/-- Whether moving the placeholders of an expression up keeps them in range. -/
def shiftFits (shift : Nat) (expr : Expr) : Bool :=
  shift = 0 || expr.inputs.all (· + shift < counterBound)

/-- One template for two in a row, if the first leaves a value and the second takes one. -/
def merge (first second : Template) : Except Fault (Option Template) :=
  if first.void || second.inputs == 0 then .ok none
  else
    let shift := second.inputs - 1
    if shiftFits shift first.expr && first.inputs + shift < counterBound then
      let produced := shiftInputs shift first.expr
      .ok (some {
        inputs := first.inputs + shift
        expr := second.expr.substitute fun i => if i = shift then some produced else none
        void := second.void })
    else .error .counterOverflow

end Template

end ScriptRecovery
