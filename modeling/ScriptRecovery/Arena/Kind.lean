import ScriptRecovery.Fault
import ScriptRecovery.Script.Basic

/-!
# Kinds of syntax nodes

What a node of a syntax tree is, apart from its children: a statement, expression or target without
the parts that are nodes themselves.  A kind says which field of the form each child stands in, by
the position of the child (`Kind.fieldAt`).
-/

namespace ScriptRecovery

/-- What a node is, apart from its children. -/
inductive Kind
  /-- A script. -/
  | script
  /-- The statement `Stmt.block`. -/
  | block
  /-- The statement `Stmt.empty`. -/
  | empty
  /-- The statement `Stmt.expression`. -/
  | expression
  /-- The statement `Stmt.branch`. -/
  | branch
  /-- The statement `Stmt.ret`. -/
  | ret
  /-- The statement `Stmt.raise`. -/
  | raise
  /-- The statement `Stmt.setVariable`. -/
  | setVariable
  /-- The statement `Stmt.constantPool`. -/
  | constantPool (pool : List String)
  /-- The statement `Stmt.declareVariable`. -/
  | declareVariable
  /-- The statement `Stmt.push`. -/
  | push
  /-- The statement `Stmt.trace`. -/
  | trace
  /-- The statement `Stmt.stackCall`. -/
  | stackCall
  /-- The expression `Expr.atom`. -/
  | atom (atom : Atom)
  /-- The expression `Expr.unary`. -/
  | unary (operator : UnaryOperator)
  /-- The expression `Expr.binary`. -/
  | binary (operator : BinaryOperator)
  /-- The expression `Expr.logical`. -/
  | logical (operator : LogicalOperator)
  /-- The expression `Expr.assignment`. -/
  | assignment (operator : AssignmentOperator)
  /-- The expression `Expr.member`. -/
  | member
  /-- The expression `Expr.call`. -/
  | call
  /-- The expression `Expr.sequence`. -/
  | sequence
  /-- The expression `Expr.conditional`. -/
  | conditional
  /-- The expression `Expr.lookup`. -/
  | lookup
  /-- The expression `Expr.propertyName`. -/
  | propertyName
  /-- The expression `Expr.initArray`. -/
  | initArray
  /-- The expression `Expr.initObject`. -/
  | initObject
  /-- The expression `Expr.input`. -/
  | input (index : Nat)
  /-- The target `Target.identifier`. -/
  | identifierTarget (name : String)
  /-- The target `Target.member`. -/
  | memberTarget
  /-- The target `Target.register`. -/
  | registerTarget (index : UInt8)
  /-- The target `Target.temporary`. -/
  | temporaryTarget (id : Nat)
  deriving DecidableEq, Inhabited

/-- The fields that children stand in. -/
inductive Field
  | body | expression | test | truthy | falsy | argument | name | value | target | callee
  | argCount | arguments | expressions | left | right | base | key | index | itemCount
  deriving DecidableEq, Inhabited

namespace Kind

/-- The name of a kind. -/
def name : Kind → String
  | script => "Script"
  | block => "BlockStatement"
  | empty => "EmptyStatement"
  | expression => "ExpressionStatement"
  | branch => "IfStatement"
  | ret => "ReturnStatement"
  | raise => "ThrowStatement"
  | setVariable => "SetVariable"
  | constantPool _ => "OpConstantPool"
  | declareVariable => "OpDeclareVariable"
  | push => "OpPush"
  | trace => "OpTrace"
  | stackCall => "OpStackCall"
  | atom a => a.name
  | unary _ => "UnaryExpression"
  | binary _ => "BinaryExpression"
  | logical _ => "LogicalExpression"
  | assignment _ => "AssignmentExpression"
  | member => "MemberExpression"
  | call => "CallExpression"
  | sequence => "SequenceExpression"
  | conditional => "ConditionalExpression"
  | lookup => "OpVariable"
  | propertyName => "OpPropertyName"
  | initArray => "OpInitArray"
  | initObject => "OpInitObject"
  | input _ => "Input"
  | identifierTarget _ => "IdentifierPattern"
  | memberTarget => "MemberPattern"
  | registerTarget _ => "OpRegisterPattern"
  | temporaryTarget _ => "OpTemporaryPattern"

/-- Where a node of a kind can stand. -/
def category : Kind → Category
  | script => .script
  | block | empty | expression | branch | ret | raise | setVariable | constantPool _
  | declareVariable | push | trace | stackCall => .statement
  | atom _ | unary _ | binary _ | logical _ | assignment _ | member | call | sequence
  | conditional | lookup | propertyName | initArray | initObject | input _ => .expression
  | identifierTarget _ | memberTarget | registerTarget _ | temporaryTarget _ => .target

/-- The field of the child at a position.  A kind with a list of children has them last. -/
def fieldAt : Kind → Nat → Field
  | script, _ | block, _ => .body
  | expression, _ => .expression
  | branch, 0 | conditional, 0 => .test
  | branch, 1 | conditional, 1 => .truthy
  | branch, _ | conditional, _ => .falsy
  | ret, _ | raise, _ | unary _, _ => .argument
  | setVariable, 0 | declareVariable, 0 | lookup, _ => .name
  | setVariable, _ | declareVariable, _ | push, _ | trace, _ => .value
  | stackCall, 0 | call, 0 => .callee
  | stackCall, 1 => .argCount
  | stackCall, _ | assignment _, 0 => .target
  | assignment _, _ => .value
  | binary _, 0 | logical _, 0 => .left
  | binary _, _ | logical _, _ => .right
  | member, 0 | memberTarget, 0 => .base
  | member, _ | memberTarget, _ => .key
  | call, _ => .arguments
  | sequence, _ => .expressions
  | propertyName, _ => .index
  | initArray, _ | initObject, _ => .itemCount
  | empty, _ | constantPool _, _ | atom _, _ | input _, _ | identifierTarget _, _
  | registerTarget _, _ | temporaryTarget _, _ => .body

/-- The temporary that a kind names. -/
def temporary? : Kind → Option Nat
  | atom (.temporary id) | temporaryTarget id => some id
  | _ => none

end Kind

/-- The text of a field. -/
def Field.text : Field → String
  | body => "body"
  | expression => "expression"
  | test => "test"
  | truthy => "truthy"
  | falsy => "falsy"
  | argument => "argument"
  | name => "name"
  | value => "value"
  | target => "target"
  | callee => "callee"
  | argCount => "arg_count"
  | arguments => "arguments"
  | expressions => "expressions"
  | left => "left"
  | right => "right"
  | base => "base"
  | key => "key"
  | index => "index"
  | itemCount => "item_count"

/-- Every field. -/
def Field.all : List Field :=
  [body, expression, test, truthy, falsy, argument, name, value, target, callee, argCount,
    arguments, expressions, left, right, base, key, index, itemCount]

/-- The field with a text. -/
def Field.ofText? (text : String) : Option Field := all.find? (·.text == text)

theorem Field.ofText?_eq_some {s : String} {field : Field} :
    ofText? s = some field ↔ field.text = s :=
  find?_text_eq_some fun field => by cases field <;> rfl

end ScriptRecovery
