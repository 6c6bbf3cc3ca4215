import ScriptRecovery.Action.Basic
import ScriptRecovery.Graph.Splice
import ScriptRecovery.Script.Template

/-!
# Edges of a control flow graph

What happens between two nodes of a control flow graph.  Construction knows plain edges, actions
and the three edges of a test.  Reduction turns actions into templates, and a test with both its
arms into one conditional edge that holds the arms as graphs.

`Edge.carried` is what recursion into these graphs rests on: an edge of a graph is smaller than
the graph.
-/

namespace ScriptRecovery

/-- An edge of a control flow graph. -/
inductive Edge
  /-- Nothing happens. -/
  | plain
  /-- An action is run. -/
  | action (action : Action)
  /-- A template is applied to the stack. -/
  | template (template : Template)
  /-- The test held. -/
  | ifTrue
  /-- The test did not hold. -/
  | ifFalse
  /-- The way to a test. -/
  | ifTest
  /-- A test is popped and one of two graphs is run. -/
  | conditional (ifTrue ifFalse : Graph Edge)
  /-- A note about what is found there. -/
  | marker (name : String)
  /-- A call into another part of the program. -/
  | sub

instance : Inhabited Edge := ⟨.plain⟩

instance : PlainEdge Edge := ⟨.plain⟩

/-- A control flow graph. -/
abbrev FlowGraph := Graph Edge

namespace Edge

/-- The name of an edge. -/
def name : Edge → String
  | plain => "Simple"
  | action _ => "Action"
  | template _ => "Expression"
  | ifTrue => "IfTrue"
  | ifFalse => "IfFalse"
  | ifTest => "IfTest"
  | conditional .. => "Conditional"
  | marker _ => "Marker"
  | sub => "Sub"

/-- Whether an edge only says where it goes. -/
def isTransparent : Edge → Bool
  | plain | ifTrue | ifFalse | ifTest | marker _ => true
  | action _ | template _ | conditional .. | sub => false

/-- The template of an edge. -/
def template? : Edge → Option Template
  | template t => some t
  | _ => none

end Edge

end ScriptRecovery
