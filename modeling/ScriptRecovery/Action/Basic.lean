import ScriptRecovery.Number
import ScriptRecovery.Script.Operator

/-!
# Actions

An action is one instruction of the stack machine, with its operands and without interpretation.
The operators on two operands are one form, `Action.binary`.  All of them pop two values and push
one, and no function over actions has to tell them apart except for their names and codes.

`Action.encodedLength` is the number of bytes of an action in the encoded stream.  A code below
`0x80` is a byte by itself.  Any other is followed by two bytes of length and the payload.
-/

namespace ScriptRecovery

/-- A value that a push puts on the stack. -/
inductive Operand
  /-- A truth value. -/
  | boolean (value : Bool)
  /-- An entry of the constant pool in force. -/
  | constant (index : UInt16)
  /-- A single precision number. -/
  | single (value : Single)
  /-- A double precision number. -/
  | double (value : Double)
  /-- The null value. -/
  | null
  /-- The content of a register. -/
  | register (index : UInt8)
  /-- A whole number. -/
  | int32 (value : Int32)
  /-- A text. -/
  | string (value : String)
  /-- The undefined value. -/
  | undefined
  deriving DecidableEq, Inhabited

/-- An action. -/
inductive Action
  /-- An operator on the two topmost values. -/
  | binary (operator : BinaryOperator)
  /-- Calls the function named on the stack. -/
  | callFunction
  /-- Calls a method of the object on the stack. -/
  | callMethod
  /-- Defines the constant pool for the pushes that follow. -/
  | constantPool (pool : List String)
  /-- Subtracts one from the top of the stack. -/
  | decrement
  /-- Declares a local variable without value. -/
  | defineLocal
  /-- Declares a local variable with a value. -/
  | defineLocal2
  /-- Pushes the property names of an object. -/
  | enumerate
  /-- Reads a member of an object. -/
  | getMember
  /-- Reads a property by its number. -/
  | getProperty
  /-- Reads a variable by its name. -/
  | getVariable
  /-- Goes on at a distance from its end when the popped test holds. -/
  | branch (displacement : Int16)
  /-- Adds one to the top of the stack. -/
  | increment
  /-- Builds an array of stack items. -/
  | initArray
  /-- Builds an object of stack items. -/
  | initObject
  /-- Goes on at a distance from its end. -/
  | jump (displacement : Int16)
  /-- Negates a truth value. -/
  | not
  /-- Starts the timeline. -/
  | play
  /-- Drops the top of the stack. -/
  | pop
  /-- Pushes values in order. -/
  | push (values : List Operand)
  /-- Pushes the top of the stack again. -/
  | pushDuplicate
  /-- Returns from the current function. -/
  | ret
  /-- Writes a member of an object. -/
  | setMember
  /-- Writes a property by its number. -/
  | setProperty
  /-- Writes a variable by its name. -/
  | setVariable
  /-- Swaps the two topmost values. -/
  | stackSwap
  /-- Stops the timeline. -/
  | stop
  /-- Copies the top of the stack into a register. -/
  | storeRegister (index : UInt8)
  /-- Raises the top of the stack. -/
  | raise
  /-- Converts to a number. -/
  | toNumber
  /-- Converts to a text. -/
  | toText
  /-- Prints the top of the stack. -/
  | trace
  /-- Gives the type of a value. -/
  | typeOf
  /-- An action by its code and payload. -/
  | unknown (code : UInt8) (data : List UInt8)
  deriving DecidableEq, Inhabited

/-! ## Names -/

/-- The name of the action of a binary operator. -/
def BinaryOperator.actionName : BinaryOperator → String
  | legacyAdd => "Add"
  | add => "Add2"
  | bitAnd => "BitAnd"
  | bitOr => "BitOr"
  | bitXor => "BitXor"
  | leftShift => "BitLShift"
  | signedRightShift => "BitRShift"
  | unsignedRightShift => "BitURShift"
  | subtract => "Subtract"
  | multiply => "Multiply"
  | divide => "Divide"
  | remainder => "Modulo"
  | equals => "Equals2"
  | strictEquals => "StrictEquals"
  | less => "Less2"
  | greater => "Greater"
  | instanceOf => "InstanceOf"

/-- The name of an action. -/
def Action.name : Action → String
  | binary operator => operator.actionName
  | callFunction => "CallFunction"
  | callMethod => "CallMethod"
  | constantPool _ => "ConstantPool"
  | decrement => "Decrement"
  | defineLocal => "DefineLocal"
  | defineLocal2 => "DefineLocal2"
  | enumerate => "Enumerate"
  | getMember => "GetMember"
  | getProperty => "GetProperty"
  | getVariable => "GetVariable"
  | branch _ => "If"
  | increment => "Increment"
  | initArray => "InitArray"
  | initObject => "InitObject"
  | jump _ => "Jump"
  | not => "Not"
  | play => "Play"
  | pop => "Pop"
  | push _ => "Push"
  | pushDuplicate => "PushDuplicate"
  | ret => "Return"
  | setMember => "SetMember"
  | setProperty => "SetProperty"
  | setVariable => "SetVariable"
  | stackSwap => "StackSwap"
  | stop => "Stop"
  | storeRegister _ => "StoreRegister"
  | raise => "Throw"
  | toNumber => "ToNumber"
  | toText => "ToString"
  | trace => "Trace"
  | typeOf => "TypeOf"
  | unknown .. => "Unknown"

/-- The actions that their name determines. -/
def Action.plain : List Action :=
  BinaryOperator.all.map binary ++
    [callFunction, callMethod, decrement, defineLocal, defineLocal2, enumerate, getMember,
      getProperty, getVariable, increment, initArray, initObject, not, play, pop, pushDuplicate,
      ret, setMember, setProperty, setVariable, stackSwap, stop, raise, toNumber, toText, trace,
      typeOf]

/-- The action that a name determines. -/
def Action.ofName? (name : String) : Option Action := plain.find? (·.name == name)

/-- An action whose name determines it is found by its name. -/
theorem Action.ofName?_eq_some {name : String} {a : Action} :
    ofName? name = some a ↔ a ∈ plain ∧ a.name = name := by
  constructor
  · intro h
    exact ⟨List.mem_of_find?_eq_some h, by simpa using List.find?_some h⟩
  · rintro ⟨ha, rfl⟩
    have hfound : ∀ a ∈ plain, ofName? a.name = some a := by decide
    exact hfound a ha

/-- The binary operator of an action. -/
def Action.binaryOperator? : Action → Option BinaryOperator
  | binary operator => some operator
  | _ => none

theorem Action.binaryOperator?_eq_some {a : Action} {operator : BinaryOperator} :
    a.binaryOperator? = some operator ↔ a = binary operator := by
  cases a <;> simp [binaryOperator?]

/-! ## Encoding -/

/-- The code of the action of a binary operator. -/
def BinaryOperator.code : BinaryOperator → UInt8
  | legacyAdd => 0x0a
  | add => 0x47
  | bitAnd => 0x60
  | bitOr => 0x61
  | bitXor => 0x62
  | leftShift => 0x63
  | signedRightShift => 0x64
  | unsignedRightShift => 0x65
  | subtract => 0x0b
  | multiply => 0x0c
  | divide => 0x0d
  | remainder => 0x3f
  | equals => 0x49
  | strictEquals => 0x66
  | less => 0x48
  | greater => 0x67
  | instanceOf => 0x54

/-- The code of an action. -/
def Action.code : Action → UInt8
  | binary operator => operator.code
  | callFunction => 0x3d
  | callMethod => 0x52
  | constantPool _ => 0x88
  | decrement => 0x51
  | defineLocal => 0x3c
  | defineLocal2 => 0x41
  | enumerate => 0x46
  | getMember => 0x4e
  | getProperty => 0x22
  | getVariable => 0x1c
  | branch _ => 0x9d
  | increment => 0x50
  | initArray => 0x42
  | initObject => 0x43
  | jump _ => 0x99
  | not => 0x12
  | play => 0x06
  | pop => 0x17
  | push _ => 0x96
  | pushDuplicate => 0x4c
  | ret => 0x3e
  | setMember => 0x4f
  | setProperty => 0x23
  | setVariable => 0x1d
  | stackSwap => 0x4d
  | stop => 0x07
  | storeRegister _ => 0x87
  | raise => 0x2a
  | toNumber => 0x4a
  | toText => 0x4b
  | trace => 0x26
  | typeOf => 0x44
  | unknown code _ => code

/-- The number of bytes of a value in the payload of a push: a tag and the value.  A text ends with
a zero byte, and an index below 256 takes one byte. -/
def Operand.encodedLength : Operand → Nat
  | null | undefined => 1
  | boolean _ | register _ => 2
  | constant index => if index < 256 then 2 else 3
  | single _ | int32 _ => 5
  | double _ => 9
  | string value => value.utf8ByteSize + 2

/-- The sum of a number for each element of a list. -/
def total {α : Type} (f : α → Nat) : List α → Nat
  | [] => 0
  | a :: as => f a + total f as

theorem total_append {α : Type} (f : α → Nat) (xs ys : List α) :
    total f (xs ++ ys) = total f xs + total f ys := by
  induction xs with
  | nil => simp [total]
  | cons x xs ih => simp [total, ih, Nat.add_assoc]

theorem total_map {α β : Type} (f : β → Nat) (h : α → β) (xs : List α) :
    total f (xs.map h) = total (fun x => f (h x)) xs := by
  induction xs with
  | nil => rfl
  | cons x xs ih => simp [total, ih]

/-- The number of bytes of the payload of an action whose code is at least `0x80`. -/
def Action.payloadLength : Action → Nat
  | constantPool pool => 2 + total (·.utf8ByteSize + 1) pool
  | branch _ | jump _ => 2
  | push values => total Operand.encodedLength values
  | storeRegister _ => 1
  | unknown _ data => data.length
  | _ => 0

/-- The number of bytes of an action. -/
def Action.encodedLength (a : Action) : Nat :=
  if a.code < 0x80 then 1 else 3 + a.payloadLength

/-- An action takes at least one byte. -/
theorem Action.encodedLength_pos (a : Action) : 0 < a.encodedLength := by
  unfold encodedLength
  split <;> omega

end ScriptRecovery
