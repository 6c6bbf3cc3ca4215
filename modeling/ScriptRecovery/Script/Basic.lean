import ScriptRecovery.Action.Basic

/-!
# Recovered scripts

A script is a list of statements.  Statements hold expressions, and an assignment writes to a
target.  Next to the constructs of the source language there are forms for what the machine does
and the source language does not show: its operand stack, its registers, its constant pool, and
the temporaries that recovery introduces.  Later stages resolve as many of these as they can.

Every form carries the offset it came from, if one is known.  The one exception is
`Expr.input`, the placeholder of a template, which never stands in a finished script.

The forms without parts of their own are one type, `Atom`, so that a function over expressions
treats all of them in one case.
-/

namespace ScriptRecovery

/-- The offset a form came from, if one is known. -/
abbrev Loc := Option Nat

/-- The number of values of a counter of the machine: temporaries, placeholders and operand counts
are below it. -/
def counterBound : Nat := 0x100000000

/-- An expression without parts. -/
inductive Atom
  /-- A name of the source language. -/
  | identifier (name : String)
  /-- A truth value. -/
  | boolean (value : Bool)
  /-- A numeric literal. -/
  | number (value : Double)
  /-- A text literal. -/
  | string (value : String)
  /-- The null literal. -/
  | null
  /-- The undefined value. -/
  | undefined
  /-- An entry of the constant pool in force. -/
  | constant (index : UInt16)
  /-- The content of a register. -/
  | register (index : UInt8)
  /-- The content of a temporary. -/
  | temporary (id : Nat)
  /-- The global object. -/
  | global
  /-- The top of the operand stack, which is removed. -/
  | pop
  deriving DecidableEq, Inhabited

mutual

/-- An expression. -/
inductive Expr
  /-- An expression without parts. -/
  | atom (atom : Atom) (loc : Loc)
  /-- An operator on one operand. -/
  | unary (operator : UnaryOperator) (argument : Expr) (loc : Loc)
  /-- An operator on two operands. -/
  | binary (operator : BinaryOperator) (left right : Expr) (loc : Loc)
  /-- An operator that may leave its right operand unevaluated. -/
  | logical (operator : LogicalOperator) (left right : Expr) (loc : Loc)
  /-- A store, whose value is the stored one. -/
  | assignment (operator : AssignmentOperator) (target : Target) (value : Expr) (loc : Loc)
  /-- A member of an object. -/
  | member (base key : Expr) (loc : Loc)
  /-- A call. -/
  | call (callee : Expr) (arguments : List Expr) (loc : Loc)
  /-- Expressions in order, of which the last gives the value. -/
  | sequence (expressions : List Expr) (loc : Loc)
  /-- A choice between two expressions. -/
  | conditional (test truthy falsy : Expr) (loc : Loc)
  /-- The variable whose name is computed. -/
  | lookup (name : Expr) (loc : Loc)
  /-- The name of a property given by its number. -/
  | propertyName (index : Expr) (loc : Loc)
  /-- An array of as many stack items as the count says. -/
  | initArray (itemCount : Expr) (loc : Loc)
  /-- An object of as many pairs of stack items as the count says. -/
  | initObject (itemCount : Expr) (loc : Loc)
  /-- A placeholder of a template. -/
  | input (index : Nat)

/-- What an assignment writes to. -/
inductive Target
  /-- A name of the source language. -/
  | identifier (name : String) (loc : Loc)
  /-- A member of an object. -/
  | member (base key : Expr) (loc : Loc)
  /-- A register. -/
  | register (index : UInt8) (loc : Loc)
  /-- A temporary. -/
  | temporary (id : Nat) (loc : Loc)

end

instance : Inhabited Expr := ⟨.input 0⟩

/-- A statement. -/
inductive Stmt
  /-- Statements in order. -/
  | block (body : List Stmt) (loc : Loc)
  /-- The statement that does nothing. -/
  | empty (loc : Loc)
  /-- An expression whose value is dropped. -/
  | expression (expression : Expr) (loc : Loc)
  /-- A choice between two statements. -/
  | branch (test : Expr) (truthy : Stmt) (falsy : Option Stmt) (loc : Loc)
  /-- The end of a function, with its result. -/
  | ret (argument : Option Expr) (loc : Loc)
  /-- A raised exception. -/
  | raise (argument : Expr) (loc : Loc)
  /-- A store to the variable whose name is computed. -/
  | setVariable (name value : Expr) (loc : Loc)
  /-- The definition of the constant pool. -/
  | constantPool (pool : List String) (loc : Loc)
  /-- The declaration of a local variable whose name is computed. -/
  | declareVariable (name : Expr) (value : Option Expr) (loc : Loc)
  /-- A value put on the operand stack. -/
  | push (value : Expr) (loc : Loc)
  /-- A value printed. -/
  | trace (value : Expr) (loc : Loc)
  /-- A call of which the arguments are on the operand stack. -/
  | stackCall (target : Option Target) (callee argCount : Expr) (loc : Loc)

instance : Inhabited Stmt := ⟨.empty none⟩

/-- A script. -/
structure Script where
  /-- The statements, in order. -/
  body : List Stmt
  /-- The offset it came from, if one is known. -/
  loc : Loc := none
  deriving Inhabited

/-! ## Forms without a location -/

namespace Expr

/-- A name of the source language. -/
def identifier (name : String) : Expr := .atom (.identifier name) none

/-- A numeric literal. -/
def number (value : Double) : Expr := .atom (.number value) none

/-- A text literal. -/
def string (value : String) : Expr := .atom (.string value) none

/-- The undefined value. -/
def undefined : Expr := .atom .undefined none

/-- The content of a temporary. -/
def temporary (id : Nat) : Expr := .atom (.temporary id) none

/-- The top of the operand stack, which is removed. -/
def pop : Expr := .atom .pop none

/-- A plain store. -/
def assign (target : Target) (value : Expr) : Expr := .assignment .simple target value none

end Expr

/-! ## Names of the forms -/

/-- The name of an atom's form. -/
def Atom.name : Atom → String
  | identifier _ => "Identifier"
  | boolean _ => "BooleanLiteral"
  | number _ => "NumberLiteral"
  | string _ => "StringLiteral"
  | null => "NullLiteral"
  | undefined => "OpUndefined"
  | constant _ => "OpConstant"
  | register _ => "OpRegister"
  | temporary _ => "OpTemporary"
  | global => "OpGlobal"
  | pop => "OpPop"

/-- The name of an expression's form. -/
def Expr.name : Expr → String
  | atom a _ => a.name
  | unary .. => "Unary"
  | binary .. => "Binary"
  | logical .. => "Logical"
  | assignment .. => "Assignment"
  | member .. => "Member"
  | call .. => "Call"
  | sequence .. => "Sequence"
  | conditional .. => "Conditional"
  | lookup .. => "OpVariable"
  | propertyName .. => "OpPropertyName"
  | initArray .. => "OpInitArray"
  | initObject .. => "OpInitObject"
  | input _ => "Input"

/-- The name of a target's form. -/
def Target.name : Target → String
  | identifier .. => "Identifier"
  | member .. => "Member"
  | register .. => "OpRegister"
  | temporary .. => "OpTemporary"

/-- The name of a statement's form. -/
def Stmt.name : Stmt → String
  | block .. => "Block"
  | empty _ => "Empty"
  | expression .. => "Expression"
  | branch .. => "If"
  | ret .. => "Return"
  | raise .. => "Throw"
  | setVariable .. => "SetVariable"
  | constantPool .. => "OpConstantPool"
  | declareVariable .. => "OpDeclareVariable"
  | push .. => "OpPush"
  | trace .. => "OpTrace"
  | stackCall .. => "OpStackCall"

/-- Whether a statement is the one that does nothing. -/
def Stmt.isEmpty : Stmt → Bool
  | empty _ => true
  | _ => false

/-- The expression for an operand.  Numbers of every width become numeric literals. -/
def Operand.toExpr : Operand → Expr
  | boolean value => .atom (.boolean value) none
  | constant index => .atom (.constant index) none
  | single value => .number (.ofSingle value)
  | double value => .number value
  | null => .atom .null none
  | register index => .atom (.register index) none
  | int32 value => .number (.ofInt32 value)
  | string value => .string value
  | undefined => .undefined

end ScriptRecovery
