/-!
# Faults

Recovery is refused in three ways.

* The input has a part without a rule: `Fault.unsupported`, with the name of the part.
* The caller broke a promise: an id of another structure, a chain that is not a chain, an edit
  while the tree is being walked, or one of the causes in `Violation`.
* The run cannot go on: a counter of the machine would leave its range, or a link that leaves the
  arena had to be followed.  These two are `Fault.isFatal`.

A fault is a cause.  The wording is in `Violation.message` and `Fault.message` and nowhere else.
-/

namespace ScriptRecovery

/-- What was found in a place of a graph where a node with one way out was expected. -/
inductive NodeShape
  /-- A place without a way out. -/
  | pending
  /-- The end of the graph. -/
  | done
  /-- A test, with the targets of its two arms. -/
  | branch (onTrue onFalse : Nat)
  deriving DecidableEq

/-- The kinds of parts a syntax tree is made of. -/
inductive Category
  | script | statement | expression | target
  deriving DecidableEq, Inhabited

/-- Why an operation contradicts the structure it was applied to. -/
inductive Violation
  /-- An index past the end of a listing. -/
  | actionOutOfRange (index : Nat)
  /-- A branch target past the end of a listing. -/
  | targetOutOfRange (target : Nat)
  /-- A distance that a branch cannot hold. -/
  | displacementOverflow (distance : Int)
  /-- An action that is no branch. -/
  | notBranch (name : String) (index : Nat)
  /-- A reachable place without a way out. -/
  | reachablePending (node : Nat)
  /-- A node without exactly one way out. -/
  | notSimple (node : Nat) (shape : NodeShape)
  /-- A region whose end its start does not reach. -/
  | regionMisses (start dest : Nat)
  /-- A test edge that does not lead to a test. -/
  | testWithoutBranch (node : Nat)
  /-- A test with several ways in. -/
  | sharedBranch (node degree : Nat)
  /-- A path that stops at a place without a way out. -/
  | incompletePath (node : Nat)
  /-- A part of a tree that cannot give way to a part of another category. -/
  | replaceMismatch (name : String) (node : Nat) (category : Category)
  /-- A statement that is not an element of a list. -/
  | notInList (node : Nat)
  /-- A part that is not among the children of its parent where its link says. -/
  | misplaced (node index parent : Nat)
  /-- A part of another category than the one asked for. -/
  | wrongCategory (node : Nat) (name : String) (category : Category)
  /-- A part whose children are not those its kind calls for. -/
  | malformed (node : Nat)
  /-- A walk that left its start. -/
  | leftSubtree (node start : Nat)
  deriving DecidableEq

/-- Why an operation is refused. -/
inductive Fault
  /-- A part without a rule, by its name. -/
  | unsupported (name : String)
  /-- A chain without nodes. -/
  | emptyChain
  /-- Nodes that do not form a chain of their own. -/
  | invalidChain
  /-- An edit of a tree that is being walked. -/
  | traversalActive
  /-- An id outside its structure. -/
  | nodeNotFound (node : Nat)
  /-- A contradiction to the structure. -/
  | violation (cause : Violation)
  /-- A counter of the machine at the end of its range. -/
  | counterOverflow
  /-- A link that had to be followed out of the arena. -/
  | linkOutsideArena
  deriving DecidableEq

/-- Whether a fault ends the run. -/
def Fault.isFatal : Fault → Bool
  | counterOverflow | linkOutsideArena => true
  | _ => false

/-! ## Wording -/

/-- The text of a node of a graph. -/
def nodeText (node : Nat) : String := "n" ++ toString node

/-- The text of a node by its position in an arena. -/
def nodeDebugText (node : Nat) : String := "NodeId(" ++ toString node ++ ")"

/-- The text of a shape. -/
def NodeShape.text : NodeShape → String
  | pending => "Pending"
  | done => "End"
  | branch onTrue onFalse =>
      "If \x7b out_true: " ++ arm "IfTrue" onTrue ++ ", out_false: " ++ arm "IfFalse" onFalse
        ++ " \x7d"
where
  /-- The text of one arm. -/
  arm (edge : String) (dest : Nat) : String :=
    "Link \x7b edge: " ++ edge ++ ", to: " ++ nodeDebugText dest ++ " \x7d"

/-- The name of a category. -/
def Category.name : Category → String
  | script => "Script"
  | statement => "Statement"
  | expression => "Expression"
  | target => "Pattern"

/-- A category as a noun in a sentence. -/
def Category.noun : Category → String
  | script => "script"
  | statement => "statement"
  | expression => "expression"
  | target => "pattern"

/-- The text of a violation. -/
def Violation.message : Violation → String
  | actionOutOfRange index => "Action index " ++ toString index ++ " out of range"
  | targetOutOfRange target => "Branch target " ++ toString target ++ " out of range"
  | displacementOverflow distance =>
      "Branch displacement " ++ toString distance ++ " overflows"
  | notBranch name index =>
      "Action " ++ name ++ " at index " ++ toString index ++ " is not a branch"
  | reachablePending node => "Node " ++ nodeText node ++ " is reachable but incomplete"
  | notSimple node shape =>
      "Node " ++ nodeText node ++ " is not a Simple node: " ++ shape.text
  | regionMisses start dest =>
      "Interval from " ++ nodeText start ++ " does not reach " ++ nodeText dest
  | testWithoutBranch node =>
      "IfTest edge from " ++ nodeText node ++ " not followed by an If node"
  | sharedBranch node degree =>
      "If node " ++ nodeText node ++ " has in-degree " ++ toString degree
  | incompletePath node => "Reached incomplete node " ++ nodeText node
  | replaceMismatch name node category =>
      "Cannot replace " ++ name ++ " " ++ nodeText node ++ " with a " ++ category.name ++ " node"
  | notInList node => "Node " ++ nodeText node ++ " is not in a statement list"
  | misplaced node index parent =>
      "Node " ++ nodeText node ++ " is not child " ++ toString index ++ " of " ++ nodeText parent
  | wrongCategory node name category =>
      "Node " ++ nodeText node ++ " is a " ++ name ++ ", not a " ++ category.noun
  | malformed node => "Node " ++ nodeText node ++ " does not have the children of its kind"
  | leftSubtree node start =>
      "Node " ++ nodeText node ++ " left the subtree of " ++ nodeText start

/-- The text of a fault. -/
def Fault.message : Fault → String
  | unsupported name => "Unsupported operation: " ++ name
  | emptyChain => "EmptyChain"
  | invalidChain => "InvalidChain"
  | traversalActive => "Cannot replace nodes while a traversal is active"
  | nodeNotFound node => "Node " ++ toString node ++ " does not exist"
  | violation cause => cause.message
  | counterOverflow => "A counter is at the end of its range"
  | linkOutsideArena => "A link leaves the arena"

/-! ## Operations one after another -/

section Bind

variable {α β : Type} {x : Except Fault α} {f : α → Except Fault β}

/-- Two operations in a row succeed if the first does, and the second with what it gave. -/
theorem bind_eq_ok {b : β} : (x >>= f) = .ok b ↔ ∃ a, x = .ok a ∧ f a = .ok b := by
  cases x <;> simp [bind, Except.bind]

/-- Two operations in a row are refused where the first is, or the second with what it gave. -/
theorem bind_eq_error {fault : Fault} :
    (x >>= f) = .error fault ↔ x = .error fault ∨ ∃ a, x = .ok a ∧ f a = .error fault := by
  cases x <;> simp [bind, Except.bind]

end Bind

end ScriptRecovery
