import ScriptRecovery.Script.Inputs

/-!
# Visiting the parts of an expression

How replacement is carried out: a visitor is given the parts of an expression, from left to right,
and what it makes of each comes in place of the part.  The parts are those of `Expr.children`.

The placeholders are replaced by such visits all the way down.  The expression for a placeholder is
asked for when the visit comes to it, and the answer may depend on what was asked before.  What is
put in place of a placeholder is not visited.
-/

namespace ScriptRecovery

variable {m : Type → Type} [Monad m]

/-- Visits expressions in order. -/
def Expr.visitAll (es : List Expr) (visit : (c : Expr) → c ∈ es → m Expr) : m (List Expr) :=
  es.attach.mapM fun c => visit c.1 c.2

theorem Expr.visitAll_cons [LawfulMonad m] {e : Expr} {es : List Expr}
    (visit : (c : Expr) → c ∈ e :: es → m Expr) : Expr.visitAll (e :: es) visit = (do
      let e' ← visit e (.head _)
      let es' ← Expr.visitAll es fun c hc => visit c (.tail _ hc)
      return e' :: es') := by
  simp only [visitAll, List.attach_cons, List.mapM_cons, List.mapM_map]
  rfl

/-- Visits the expressions directly below an assignment target. -/
def Target.visitChildren : (t : Target) → ((c : Expr) → c ∈ t.children → m Expr) → m Target
  | .member base key loc, visit =>
      return .member (← visit base (.head _)) (← visit key (.tail _ (.head _))) loc
  | .identifier name loc, _ => return .identifier name loc
  | .register index loc, _ => return .register index loc
  | .temporary id loc, _ => return .temporary id loc

/-- Visits the expressions directly below an expression. -/
def Expr.visitChildren : (e : Expr) → ((c : Expr) → c ∈ e.children → m Expr) → m Expr
  | .atom a loc, _ => return .atom a loc
  | .input index, _ => return .input index
  | .unary op argument loc, visit => return .unary op (← visit argument (.head _)) loc
  | .binary op left right loc, visit =>
      return .binary op (← visit left (.head _)) (← visit right (.tail _ (.head _))) loc
  | .logical op left right loc, visit =>
      return .logical op (← visit left (.head _)) (← visit right (.tail _ (.head _))) loc
  | .assignment op target value loc, visit => do
      let target ← target.visitChildren fun c hc => visit c (List.mem_append_left _ hc)
      return .assignment op target (← visit value (List.mem_append_right _ (.head _))) loc
  | .member base key loc, visit =>
      return .member (← visit base (.head _)) (← visit key (.tail _ (.head _))) loc
  | .call callee arguments loc, visit => do
      let callee ← visit callee (.head _)
      return .call callee (← visitAll arguments fun c hc => visit c (.tail _ hc)) loc
  | .sequence expressions loc, visit => return .sequence (← visitAll expressions visit) loc
  | .conditional test truthy falsy loc, visit =>
      return .conditional (← visit test (.head _)) (← visit truthy (.tail _ (.head _)))
        (← visit falsy (.tail _ (.tail _ (.head _)))) loc
  | .lookup name loc, visit => return .lookup (← visit name (.head _)) loc
  | .propertyName index loc, visit => return .propertyName (← visit index (.head _)) loc
  | .initArray itemCount loc, visit => return .initArray (← visit itemCount (.head _)) loc
  | .initObject itemCount loc, visit => return .initObject (← visit itemCount (.head _)) loc

theorem Target.sizeOf_lt_of_mem_children {t : Target} {c : Expr} (h : c ∈ t.children) :
    sizeOf c < sizeOf t := by
  cases t with
  | identifier | register | temporary => cases h
  | member =>
    simp only [children, List.mem_cons, List.not_mem_nil, or_false] at h
    rcases h with rfl | rfl <;> simp <;> omega

theorem Expr.sizeOf_lt_of_mem_children {e c : Expr} (h : c ∈ e.children) :
    sizeOf c < sizeOf e := by
  cases e with
  | atom | input => cases h
  | unary | lookup | propertyName | initArray | initObject =>
    obtain rfl := List.mem_singleton.1 h
    simp
    omega
  | binary | logical | member | conditional =>
    simp only [children, List.mem_cons, List.not_mem_nil, or_false] at h
    rcases h with rfl | rfl | rfl <;> simp <;> omega
  | assignment op target value loc =>
    rcases List.mem_append.1 h with h | h
    · have := Target.sizeOf_lt_of_mem_children h
      simp
      omega
    · obtain rfl := List.mem_singleton.1 h
      simp
      omega
  | call callee arguments loc =>
    rcases List.mem_cons.1 h with rfl | h
    · simp
      omega
    · have := List.sizeOf_lt_of_mem h
      simp
      omega
  | sequence expressions loc =>
    have := List.sizeOf_lt_of_mem (show c ∈ expressions from h)
    simp
    omega

/-- Replaces every placeholder that `resolve` answers with an expression. -/
def Expr.resolveInputs (resolve : Nat → m (Option Expr)) (e : Expr) : m Expr :=
  match e with
  | .input index => return (← resolve index).getD (.input index)
  | e => e.visitChildren fun c _h => c.resolveInputs resolve
termination_by e
decreasing_by exact Expr.sizeOf_lt_of_mem_children _h

/-- Looks up the expression for a placeholder, and notes that it was asked for. -/
def Expr.noting (f : Nat → Option Expr) (i : Nat) : StateM (List Nat) (Option Expr) := do
  modify (· ++ [i])
  return f i

/-- Replaces the placeholders that there is an expression for, and lists those that were asked for,
in the order in which they were. -/
def Expr.resolved (f : Nat → Option Expr) (e : Expr) : Expr × List Nat :=
  (e.resolveInputs (noting f)).run []

end ScriptRecovery
