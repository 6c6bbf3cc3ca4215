/-!
# Operators

The operators of the recovered language, with the text each is written as.
-/

namespace ScriptRecovery

/-- The operators on two operands. -/
inductive BinaryOperator
  | legacyAdd | add
  | bitAnd | bitOr | bitXor
  | leftShift | signedRightShift | unsignedRightShift
  | subtract | multiply | divide | remainder
  | equals | strictEquals | less | greater
  | instanceOf
  deriving DecidableEq, Inhabited

/-- The operators on one operand. -/
inductive UnaryOperator
  | logicalNot | typeOf
  deriving DecidableEq, Inhabited

/-- The operators that may leave their right operand unevaluated. -/
inductive LogicalOperator
  | and | or
  deriving DecidableEq, Inhabited

/-- The operators that store into a target. -/
inductive AssignmentOperator
  | simple | add
  deriving DecidableEq, Inhabited

/-- The text of a binary operator.  The addition of the older dialect has a word of its own. -/
def BinaryOperator.text : BinaryOperator → String
  | legacyAdd => "add"
  | add => "+"
  | bitAnd => "&"
  | bitOr => "|"
  | bitXor => "^"
  | leftShift => "<<"
  | signedRightShift => ">>"
  | unsignedRightShift => ">>>"
  | subtract => "-"
  | multiply => "*"
  | divide => "/"
  | remainder => "%"
  | equals => "=="
  | strictEquals => "==="
  | less => "<"
  | greater => ">"
  | instanceOf => "instanceof"

/-- The text of a unary operator. -/
def UnaryOperator.text : UnaryOperator → String
  | logicalNot => "!"
  | typeOf => "typeof"

/-- The text of a logical operator. -/
def LogicalOperator.text : LogicalOperator → String
  | and => "&&"
  | or => "||"

/-- The text of an assignment operator. -/
def AssignmentOperator.text : AssignmentOperator → String
  | simple => "="
  | add => "+="

/-! ## Reading the text back -/

/-- The first thing with a text is the only one when every thing is the first with its own. -/
theorem find?_text_eq_some {α : Type} {text : α → String} {all : List α}
    (h : ∀ a, all.find? (text · == text a) = some a) {s : String} {a : α} :
    all.find? (text · == s) = some a ↔ text a = s := by
  constructor
  · intro hfind
    simpa using List.find?_some hfind
  · rintro rfl
    exact h a

/-- Every binary operator. -/
def BinaryOperator.all : List BinaryOperator :=
  [legacyAdd, add, bitAnd, bitOr, bitXor, leftShift, signedRightShift, unsignedRightShift,
    subtract, multiply, divide, remainder, equals, strictEquals, less, greater, instanceOf]

/-- The binary operator written as a text. -/
def BinaryOperator.ofText? (text : String) : Option BinaryOperator :=
  all.find? (·.text == text)

theorem BinaryOperator.ofText?_eq_some {s : String} {op : BinaryOperator} :
    ofText? s = some op ↔ op.text = s :=
  find?_text_eq_some fun op => by cases op <;> rfl

/-- The unary operator written as a text. -/
def UnaryOperator.ofText? (text : String) : Option UnaryOperator :=
  [logicalNot, typeOf].find? (·.text == text)

theorem UnaryOperator.ofText?_eq_some {s : String} {op : UnaryOperator} :
    ofText? s = some op ↔ op.text = s :=
  find?_text_eq_some fun op => by cases op <;> rfl

/-- The logical operator written as a text. -/
def LogicalOperator.ofText? (text : String) : Option LogicalOperator :=
  [and, or].find? (·.text == text)

theorem LogicalOperator.ofText?_eq_some {s : String} {op : LogicalOperator} :
    ofText? s = some op ↔ op.text = s :=
  find?_text_eq_some fun op => by cases op <;> rfl

/-- The assignment operator written as a text. -/
def AssignmentOperator.ofText? (text : String) : Option AssignmentOperator :=
  [simple, add].find? (·.text == text)

theorem AssignmentOperator.ofText?_eq_some {s : String} {op : AssignmentOperator} :
    ofText? s = some op ↔ op.text = s :=
  find?_text_eq_some fun op => by cases op <;> rfl

end ScriptRecovery
