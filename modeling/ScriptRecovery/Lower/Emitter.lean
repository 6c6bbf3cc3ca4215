import ScriptRecovery.Lower.Recipe

/-!
# Writing statements

How recipes are carried out: an action takes its temporaries one at a time, each together with the
pop that fills it, and writes its statements one after the other to a stream.  The result of a call
is a temporary of its own, to which the call itself stores.

What was taken and written stays when an action is refused.
-/

namespace ScriptRecovery

/-- A stream of statements, and the scope that its temporaries come from. -/
structure Emitter where
  /-- The source of temporaries. -/
  scope : Scope
  /-- The statements so far. -/
  stream : List Stmt := []

/-- A computation that writes, whether it is refused or not. -/
abbrev Writing (α : Type) := ExceptT Fault (StateM Emitter) α

namespace Writing

/-- What a computation answers, and what it leaves behind. -/
def result {α : Type} (x : Writing α) (m : Emitter) : Except Fault α × Emitter := x.run.run m

/-- Takes a temporary. -/
def temporary : Writing Nat := do
  match (← get).scope.fresh with
  | .error fault => throw fault
  | .ok (id, scope) =>
      modify fun m => { m with scope }
      return id

/-- Writes a statement. -/
def write (s : Stmt) : Writing Unit := modify fun m => { m with stream := m.stream ++ [s] }

/-- Writes a pop into a new temporary. -/
def pop : Writing Nat := do
  let id ← temporary
  write (.popInto id)
  return id

/-- Writes a push of an expression. -/
def push (e : Expr) : Writing Unit := write (.pushing e)

/-- Writes pushes of values in order. -/
def operands : List Operand → Writing Unit
  | [] => return
  | v :: values => do
      push v.toExpr
      operands values

/-- Writes the statements of an action. -/
def action : Action → Writing Unit
  | .binary op => do
      let right ← pop
      let left ← pop
      push (.binary op (.temporary left) (.temporary right) none)
  | .callFunction => do
      let name ← pop
      let count ← pop
      let called ← temporary
      write (.stackCall (some (.temporary called none)) (.lookup (.temporary name) none)
        (.temporary count) none)
      push (.temporary called)
  | .constantPool pool => write (.constantPool pool none)
  | .decrement => do
      let argument ← pop
      push (.binary .subtract (.temporary argument) .one none)
  | .defineLocal => do
      let name ← pop
      write (.declareVariable (.temporary name) none none)
  | .defineLocal2 => do
      let value ← pop
      let name ← pop
      write (.declareVariable (.temporary name) (some (.temporary value)) none)
  | .getMember => do
      let key ← pop
      let base ← pop
      push (.member (.temporary base) (.temporary key) none)
  | .getProperty => do
      let index ← pop
      let base ← pop
      push (.member (.temporary base) (.propertyName (.temporary index) none) none)
  | .getVariable => do
      let name ← pop
      push (.lookup (.temporary name) none)
  | .increment => do
      let argument ← pop
      push (.binary .add (.temporary argument) .one none)
  | .initArray => do
      let count ← pop
      push (.initArray (.temporary count) none)
  | .initObject => do
      let count ← pop
      push (.initObject (.temporary count) none)
  | .not => do
      let argument ← pop
      push (.unary .logicalNot (.temporary argument) none)
  | .pop => write (.evaluating .pop)
  | .push values => operands values
  | .pushDuplicate => do
      let value ← pop
      push (.temporary value)
      push (.temporary value)
  | .ret => do
      let value ← pop
      write (.ret (some (.temporary value)) none)
  | .setMember => do
      let value ← pop
      let key ← pop
      let base ← pop
      write (.evaluating
        (.assign (.member (.temporary base) (.temporary key) none) (.temporary value)))
  | .setProperty => do
      let value ← pop
      let index ← pop
      let base ← pop
      write (.evaluating
        (.assign (.member (.temporary base) (.propertyName (.temporary index) none) none)
          (.temporary value)))
  | .setVariable => do
      let value ← pop
      let name ← pop
      write (.setVariable (.temporary name) (.temporary value) none)
  | .stackSwap => do
      let right ← pop
      let left ← pop
      push (.temporary right)
      push (.temporary left)
  | .storeRegister index => do
      let value ← pop
      write (.evaluating (.assign (.register index none) (.temporary value)))
      push (.atom (.register index) none)
  | .raise => do
      let value ← pop
      write (.raise (.temporary value) none)
  | .trace => do
      let value ← pop
      write (.trace (.temporary value) none)
  | .typeOf => do
      let argument ← pop
      push (.unary .typeOf (.temporary argument) none)
  | other => throw (.unsupported other.name)

/-- Writes the statements of actions in order, up to the first that is refused. -/
def actions : List Action → Writing Unit
  | [] => return
  | a :: as => do
      action a
      actions as

end Writing

end ScriptRecovery
