import ScriptRecovery.Fault
import ScriptRecovery.Script.Basic

/-!
# Actions as statements

The statements that an action amounts to on its own.  An action takes its operands off the stack
into new temporaries, the top first, and puts its result back.  `Recipe` is how many temporaries an
action needs and what it says with them.  Actions without a recipe are not supported.

Temporaries come from a `Scope`, which gives them out in ascending order.  The next one may be the
greatest there is, but it can then not be given out, since there would be none after it.

`Emission` is what a piece of code becomes: its statements, and the scope after it.  The scope is
there also when the code has no statements, and then tells how far they got.
-/

namespace ScriptRecovery

/-! ## Scopes -/

/-- A source of temporaries. -/
structure Scope where
  /-- The temporary to give out next. -/
  next : Nat := 0
  deriving DecidableEq, Inhabited

namespace Scope

/-- Whether some temporaries can be given out. -/
def fits (s : Scope) (count : Nat) : Bool := s.next + count < counterBound

/-- A scope after some temporaries are given out. -/
def advance (s : Scope) (count : Nat) : Scope := ⟨s.next + count⟩

/-- Gives out one temporary. -/
def fresh (s : Scope) : Except Fault (Nat × Scope) :=
  if s.fits 1 then .ok (s.next, s.advance 1) else .error .counterOverflow

end Scope

/-! ## Statements on temporaries -/

/-- Puts an expression on the stack. -/
def Stmt.pushing (value : Expr) : Stmt := .push value none

/-- Evaluates an expression. -/
def Stmt.evaluating (e : Expr) : Stmt := .expression e none

/-- Stores an expression in a temporary. -/
def Stmt.binding (id : Nat) (value : Expr) : Stmt :=
  .evaluating (.assign (.temporary id none) value)

/-- Takes the top of the stack into a temporary. -/
def Stmt.popInto (id : Nat) : Stmt := .binding id .pop

/-! ## Recipes -/

/-- What an action amounts to. -/
structure Recipe where
  /-- The number of temporaries. -/
  temporaries : Nat
  /-- The statements, by the first of the temporaries. -/
  body : Nat → List Stmt

/-- The literal one. -/
def Expr.one : Expr := .number (.ofInt32 1)

/-- The recipe of an action that takes values off the stack and then says something with them. -/
def Recipe.taking (count : Nat) (say : (Nat → Expr) → List Stmt) : Recipe where
  temporaries := count
  body first :=
    (List.range count).map (fun i => .popInto (first + i)) ++ say fun i => .temporary (first + i)

/-- The recipe of an action.  In each, `t 0` is the value from the top of the stack. -/
def Action.recipe? : Action → Option Recipe
  | .binary op => some <| .taking 2 fun t => [.pushing (.binary op (t 1) (t 0) none)]
  | .callFunction =>
      some {
        temporaries := 3
        body := fun first =>
          [.popInto first, .popInto (first + 1),
            .stackCall (some (.temporary (first + 2) none)) (.lookup (.temporary first) none)
              (.temporary (first + 1)) none,
            .pushing (.temporary (first + 2))] }
  | .constantPool pool => some <| .taking 0 fun _ => [.constantPool pool none]
  | .decrement => some <| .taking 1 fun t => [.pushing (.binary .subtract (t 0) .one none)]
  | .defineLocal => some <| .taking 1 fun t => [.declareVariable (t 0) none none]
  | .defineLocal2 => some <| .taking 2 fun t => [.declareVariable (t 1) (some (t 0)) none]
  | .getMember => some <| .taking 2 fun t => [.pushing (.member (t 1) (t 0) none)]
  | .getProperty =>
      some <| .taking 2 fun t => [.pushing (.member (t 1) (.propertyName (t 0) none) none)]
  | .getVariable => some <| .taking 1 fun t => [.pushing (.lookup (t 0) none)]
  | .increment => some <| .taking 1 fun t => [.pushing (.binary .add (t 0) .one none)]
  | .initArray => some <| .taking 1 fun t => [.pushing (.initArray (t 0) none)]
  | .initObject => some <| .taking 1 fun t => [.pushing (.initObject (t 0) none)]
  | .not => some <| .taking 1 fun t => [.pushing (.unary .logicalNot (t 0) none)]
  | .pop => some <| .taking 0 fun _ => [.evaluating .pop]
  | .push values => some <| .taking 0 fun _ => values.map fun v => .pushing v.toExpr
  | .pushDuplicate => some <| .taking 1 fun t => [.pushing (t 0), .pushing (t 0)]
  | .ret => some <| .taking 1 fun t => [.ret (some (t 0)) none]
  | .setMember =>
      some <| .taking 3 fun t => [.evaluating (.assign (.member (t 2) (t 1) none) (t 0))]
  | .setProperty =>
      some <| .taking 3 fun t =>
        [.evaluating (.assign (.member (t 2) (.propertyName (t 1) none) none) (t 0))]
  | .setVariable => some <| .taking 2 fun t => [.setVariable (t 1) (t 0) none]
  | .stackSwap => some <| .taking 2 fun t => [.pushing (t 0), .pushing (t 1)]
  | .storeRegister index =>
      some <| .taking 1 fun t =>
        [.evaluating (.assign (.register index none) (t 0)),
          .pushing (.atom (.register index) none)]
  | .raise => some <| .taking 1 fun t => [.raise (t 0) none]
  | .trace => some <| .taking 1 fun t => [.trace (t 0) none]
  | .typeOf => some <| .taking 1 fun t => [.pushing (.unary .typeOf (t 0) none)]
  | .callMethod | .enumerate | .branch _ | .jump _ | .play | .stop | .toNumber | .toText
  | .unknown .. => none

/-! ## Emissions -/

/-- What a piece of code becomes. -/
structure Emission where
  /-- The statements, or why there are none. -/
  statements : Except Fault (List Stmt)
  /-- The scope after it. -/
  scope : Scope

namespace Emission

/-- Statements that need no temporary. -/
def of (body : List Stmt) (scope : Scope) : Emission := ⟨.ok body, scope⟩

/-- Code that cannot be said. -/
def refused (fault : Fault) (scope : Scope) : Emission := ⟨.error fault, scope⟩

/-- The statements of code followed by those of more code, which starts in the scope that the first
leaves. -/
def followedBy (e : Emission) (more : Scope → Emission) : Emission :=
  match e.statements with
  | .error _ => e
  | .ok body =>
      let rest := more e.scope
      ⟨rest.statements.map (body ++ ·), rest.scope⟩

/-- The statements of pieces of code in a row. -/
def row {α : Type} (f : α → Scope → Emission) : List α → Scope → Emission
  | [], s => of [] s
  | x :: xs, s => (f x s).followedBy (row f xs)

end Emission

/-- The statements of a recipe. -/
def Recipe.emit (r : Recipe) (s : Scope) : Emission :=
  if s.fits r.temporaries then .of (r.body s.next) (s.advance r.temporaries)
  else .refused .counterOverflow s

/-- The statements of an action. -/
def Action.emit (a : Action) (s : Scope) : Emission :=
  match a.recipe? with
  | none => .refused (.unsupported a.name) s
  | some r => r.emit s

/-- The statements of actions in a row. -/
def Action.emitAll (as : List Action) (s : Scope) : Emission := .row Action.emit as s

end ScriptRecovery
