import ScriptRecovery.Arena.Kind
import ScriptRecovery.Arena.Rose

/-!
# Syntax as labelled trees

A statement, expression, target or script is a tree of kinds, and such a tree is one of them again
when every node has the children its kind calls for.  `Expr.rose` and its companions go one way,
`Expr.ofRose?` and its companions go back.

The children of a node are in the order in which they are evaluated.  The target of a stack call
comes after the callee and the number of arguments.
-/

namespace ScriptRecovery

/-- What a node is and where it came from. -/
structure Form where
  /-- What it is. -/
  kind : Kind
  /-- The offset it came from, if one is known. -/
  loc : Loc
  deriving DecidableEq, Inhabited

/-! ## Syntax to trees -/

mutual

/-- The tree of an expression. -/
def Expr.rose : Expr → Rose Form
  | .atom a loc => .node ⟨.atom a, loc⟩ []
  | .unary op argument loc => .node ⟨.unary op, loc⟩ [argument.rose]
  | .binary op left right loc => .node ⟨.binary op, loc⟩ [left.rose, right.rose]
  | .logical op left right loc => .node ⟨.logical op, loc⟩ [left.rose, right.rose]
  | .assignment op target value loc => .node ⟨.assignment op, loc⟩ [target.rose, value.rose]
  | .member base key loc => .node ⟨.member, loc⟩ [base.rose, key.rose]
  | .call callee arguments loc => .node ⟨.call, loc⟩ (callee.rose :: Expr.roses arguments)
  | .sequence expressions loc => .node ⟨.sequence, loc⟩ (Expr.roses expressions)
  | .conditional test truthy falsy loc =>
      .node ⟨.conditional, loc⟩ [test.rose, truthy.rose, falsy.rose]
  | .lookup name loc => .node ⟨.lookup, loc⟩ [name.rose]
  | .propertyName index loc => .node ⟨.propertyName, loc⟩ [index.rose]
  | .initArray itemCount loc => .node ⟨.initArray, loc⟩ [itemCount.rose]
  | .initObject itemCount loc => .node ⟨.initObject, loc⟩ [itemCount.rose]
  | .input index => .node ⟨.input index, none⟩ []

/-- The tree of a target. -/
def Target.rose : Target → Rose Form
  | .identifier name loc => .node ⟨.identifierTarget name, loc⟩ []
  | .member base key loc => .node ⟨.memberTarget, loc⟩ [base.rose, key.rose]
  | .register index loc => .node ⟨.registerTarget index, loc⟩ []
  | .temporary id loc => .node ⟨.temporaryTarget id, loc⟩ []

/-- The trees of expressions in order. -/
def Expr.roses : List Expr → List (Rose Form)
  | [] => []
  | e :: es => e.rose :: Expr.roses es

end

mutual

/-- The tree of a statement. -/
def Stmt.rose : Stmt → Rose Form
  | .block body loc => .node ⟨.block, loc⟩ (Stmt.roses body)
  | .empty loc => .node ⟨.empty, loc⟩ []
  | .expression e loc => .node ⟨.expression, loc⟩ [e.rose]
  | .branch test truthy none loc => .node ⟨.branch, loc⟩ [test.rose, truthy.rose]
  | .branch test truthy (some falsy) loc =>
      .node ⟨.branch, loc⟩ [test.rose, truthy.rose, falsy.rose]
  | .ret argument loc => .node ⟨.ret, loc⟩ (argument.map Expr.rose).toList
  | .raise argument loc => .node ⟨.raise, loc⟩ [argument.rose]
  | .setVariable name value loc => .node ⟨.setVariable, loc⟩ [name.rose, value.rose]
  | .constantPool pool loc => .node ⟨.constantPool pool, loc⟩ []
  | .declareVariable name value loc =>
      .node ⟨.declareVariable, loc⟩ (name.rose :: (value.map Expr.rose).toList)
  | .push value loc => .node ⟨.push, loc⟩ [value.rose]
  | .trace value loc => .node ⟨.trace, loc⟩ [value.rose]
  | .stackCall target callee argCount loc =>
      .node ⟨.stackCall, loc⟩ (callee.rose :: argCount.rose :: (target.map Target.rose).toList)

/-- The trees of statements in order. -/
def Stmt.roses : List Stmt → List (Rose Form)
  | [] => []
  | s :: ss => s.rose :: Stmt.roses ss

end

/-- The tree of a script. -/
def Script.rose (s : Script) : Rose Form := .node ⟨.script, s.loc⟩ (Stmt.roses s.body)

/-! ## Trees to syntax -/

mutual

/-- The expression of a tree. -/
def Expr.ofRose? : Rose Form → Option Expr
  | .node ⟨.atom a, loc⟩ [] => some (.atom a loc)
  | .node ⟨.unary op, loc⟩ [argument] => return .unary op (← Expr.ofRose? argument) loc
  | .node ⟨.binary op, loc⟩ [left, right] =>
      return .binary op (← Expr.ofRose? left) (← Expr.ofRose? right) loc
  | .node ⟨.logical op, loc⟩ [left, right] =>
      return .logical op (← Expr.ofRose? left) (← Expr.ofRose? right) loc
  | .node ⟨.assignment op, loc⟩ [target, value] =>
      return .assignment op (← Target.ofRose? target) (← Expr.ofRose? value) loc
  | .node ⟨.member, loc⟩ [base, key] =>
      return .member (← Expr.ofRose? base) (← Expr.ofRose? key) loc
  | .node ⟨.call, loc⟩ (callee :: arguments) =>
      return .call (← Expr.ofRose? callee) (← Expr.ofRoses? arguments) loc
  | .node ⟨.sequence, loc⟩ expressions => return .sequence (← Expr.ofRoses? expressions) loc
  | .node ⟨.conditional, loc⟩ [test, truthy, falsy] =>
      return .conditional (← Expr.ofRose? test) (← Expr.ofRose? truthy) (← Expr.ofRose? falsy) loc
  | .node ⟨.lookup, loc⟩ [name] => return .lookup (← Expr.ofRose? name) loc
  | .node ⟨.propertyName, loc⟩ [index] => return .propertyName (← Expr.ofRose? index) loc
  | .node ⟨.initArray, loc⟩ [itemCount] => return .initArray (← Expr.ofRose? itemCount) loc
  | .node ⟨.initObject, loc⟩ [itemCount] => return .initObject (← Expr.ofRose? itemCount) loc
  | .node ⟨.input index, _⟩ [] => some (.input index)
  | _ => none

/-- The target of a tree. -/
def Target.ofRose? : Rose Form → Option Target
  | .node ⟨.identifierTarget name, loc⟩ [] => some (.identifier name loc)
  | .node ⟨.memberTarget, loc⟩ [base, key] =>
      return .member (← Expr.ofRose? base) (← Expr.ofRose? key) loc
  | .node ⟨.registerTarget index, loc⟩ [] => some (.register index loc)
  | .node ⟨.temporaryTarget id, loc⟩ [] => some (.temporary id loc)
  | _ => none

/-- The expressions of trees in order. -/
def Expr.ofRoses? : List (Rose Form) → Option (List Expr)
  | [] => some []
  | r :: rs => return (← Expr.ofRose? r) :: (← Expr.ofRoses? rs)

end

mutual

/-- The statement of a tree. -/
def Stmt.ofRose? : Rose Form → Option Stmt
  | .node ⟨.block, loc⟩ body => return .block (← Stmt.ofRoses? body) loc
  | .node ⟨.empty, loc⟩ [] => some (.empty loc)
  | .node ⟨.expression, loc⟩ [e] => return .expression (← Expr.ofRose? e) loc
  | .node ⟨.branch, loc⟩ [test, truthy] =>
      return .branch (← Expr.ofRose? test) (← Stmt.ofRose? truthy) none loc
  | .node ⟨.branch, loc⟩ [test, truthy, falsy] =>
      return .branch (← Expr.ofRose? test) (← Stmt.ofRose? truthy) (← Stmt.ofRose? falsy) loc
  | .node ⟨.ret, loc⟩ [] => some (.ret none loc)
  | .node ⟨.ret, loc⟩ [argument] => return .ret (← Expr.ofRose? argument) loc
  | .node ⟨.raise, loc⟩ [argument] => return .raise (← Expr.ofRose? argument) loc
  | .node ⟨.setVariable, loc⟩ [name, value] =>
      return .setVariable (← Expr.ofRose? name) (← Expr.ofRose? value) loc
  | .node ⟨.constantPool pool, loc⟩ [] => some (.constantPool pool loc)
  | .node ⟨.declareVariable, loc⟩ [name] =>
      return .declareVariable (← Expr.ofRose? name) none loc
  | .node ⟨.declareVariable, loc⟩ [name, value] =>
      return .declareVariable (← Expr.ofRose? name) (← Expr.ofRose? value) loc
  | .node ⟨.push, loc⟩ [value] => return .push (← Expr.ofRose? value) loc
  | .node ⟨.trace, loc⟩ [value] => return .trace (← Expr.ofRose? value) loc
  | .node ⟨.stackCall, loc⟩ [callee, argCount] =>
      return .stackCall none (← Expr.ofRose? callee) (← Expr.ofRose? argCount) loc
  | .node ⟨.stackCall, loc⟩ [callee, argCount, target] =>
      return .stackCall (← Target.ofRose? target) (← Expr.ofRose? callee)
        (← Expr.ofRose? argCount) loc
  | _ => none

/-- The statements of trees in order. -/
def Stmt.ofRoses? : List (Rose Form) → Option (List Stmt)
  | [] => some []
  | r :: rs => return (← Stmt.ofRose? r) :: (← Stmt.ofRoses? rs)

end

/-- The script of a tree. -/
def Script.ofRose? : Rose Form → Option Script
  | .node ⟨.script, loc⟩ body => return ⟨← Stmt.ofRoses? body, loc⟩
  | _ => none

end ScriptRecovery
