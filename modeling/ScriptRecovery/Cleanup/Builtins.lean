import ScriptRecovery.Arena.Edit
import ScriptRecovery.Outcome

/-!
# Names in place of builtins

The global object becomes an identifier, and a trace becomes a call of a named function.
-/

namespace ScriptRecovery

/-- The names of the builtins. -/
structure BuiltinNames where
  /-- The name of the global object. -/
  global : String := "_global"
  /-- The name of the trace function. -/
  trace : String := "trace"
  deriving DecidableEq, Inhabited

namespace SyntaxTree

/-- The uses of the global object in preorder, and then the traces in preorder. -/
def builtins (t : SyntaxTree) : List Nat :=
  ((t.nodes.filter (·.2.kind = .atom .global)) ++ (t.nodes.filter (·.2.kind = .trace))).map
    Prod.fst

/-- Puts a name in place of one builtin. -/
def nameBuiltin (names : BuiltinNames) (t : SyntaxTree) (n : Nat) : Except Fault SyntaxTree := do
  match t.kind? n with
  | some .trace =>
      match ← t.statement n with
      | .trace value _ =>
          t.replaceStatement n (.expression (.call (.identifier names.trace) [value] none) none)
      | _ => throw (.violation (.malformed n))
  | _ => t.replaceExpression n (.identifier names.global)

/-- Puts names in place of builtins. -/
def nameBuiltins (names : BuiltinNames) (t : SyntaxTree) : Outcome SyntaxTree :=
  .ofEdits (nameBuiltin names) t (.ok t.builtins)

end SyntaxTree

end ScriptRecovery
