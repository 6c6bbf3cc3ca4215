import ScriptRecovery.Reduce.Pools

/-!
# Templates in place of actions

The actions that only compute, and the one that prints, become templates.

* A negation takes one value.
* An operator takes two, of which the one pushed first is on the left.
* A push becomes one template per value, in order.
* A trace takes one value and drops the result of a call of the trace function.
-/

namespace ScriptRecovery

/-- The templates that an action amounts to, under a name for the trace function. -/
def Action.templates? (traceName : String) : Action → Option (List Template)
  | .not => some [⟨1, .unary .logicalNot (.input 0) none, false⟩]
  | .push values => some (values.map fun v => .value v.toExpr)
  | .trace => some [⟨1, .call (.identifier traceName) [.input 0] none, true⟩]
  | .binary op => some [⟨2, .binary op (.input 0) (.input 1) none, false⟩]
  | _ => none

/-- The template edges that take the place of an edge. -/
def Edge.toTemplates? (traceName : String) : Edge → Option (List Edge)
  | .action a => (a.templates? traceName).map (·.map .template)
  | _ => none

/-- Puts templates in place of actions. -/
def Pass.formTemplates (traceName : String) : Pass where
  name := "expressionize"
  description :=
    "Converts logical not, push, trace and binary operator actions to partial expressions"
  run _ g :=
    .ofEdits (fun g r => g.spliceEdge r.1 r.2) g
      (.ok (FlowGraph.pickEdges g fun _ => Edge.toTemplates? traceName))

end ScriptRecovery
