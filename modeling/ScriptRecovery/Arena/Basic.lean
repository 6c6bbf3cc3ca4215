import ScriptRecovery.Arena.Form
import ScriptRecovery.Lower.Recipe

/-!
# Syntax trees in an arena

A `SyntaxTree` keeps the nodes of a script in numbered slots, so that a node keeps its number while
other parts of the script change.  A slot holds what the node is and the numbers of its children in
order.  The links the other way are kept beside the slots: for each number the parent's number, and
the field and position there.  The script itself is at number zero and has no link.  A slot whose
node is gone stays empty, and a number is never used twice.

Planting a tree of forms numbers its nodes in preorder (`Rose.plant`).  `SyntaxTree.branch?` reads
the tree below a node back, and with it the statement, expression or target that the node stands
for.

Next to slots and links a tree has the sources of temporaries that were asked for, by the node that
holds them, and the tickets of the walks that are under way.
-/

namespace ScriptRecovery

/-- Where a node stands in its parent. -/
structure ParentLink where
  /-- The parent. -/
  parent : Nat
  /-- The field of the parent's form. -/
  field : Field
  /-- The position among the parent's children. -/
  index : Nat
  deriving DecidableEq, Inhabited

/-- A node in an arena. -/
structure Slot where
  /-- What it is. -/
  form : Form
  /-- Its children, in order. -/
  children : List Nat
  deriving DecidableEq, Inhabited

/-- A script in an arena. -/
structure SyntaxTree where
  /-- The slots, by number. -/
  slots : Array (Option Slot)
  /-- The links to the parents, by number. -/
  parents : Array (Option ParentLink)
  /-- The sources of temporaries, by the number of the node that holds them. -/
  scopes : List (Nat × Scope) := []
  /-- The tickets of the walks under way. -/
  readers : List Nat := []
  /-- The ticket of the next walk. -/
  nextTicket : Nat := 0

/-! ## Planting -/

mutual

/-- The slot at `id` of a tree whose other nodes are numbered from `next` on, and their slots and
links in the order of their numbers. -/
def Rose.plant (id next : Nat) : Rose Form → Slot × List (Slot × ParentLink)
  | .node form parts =>
      let below := Rose.plantAll id form.kind 0 next parts
      (⟨form, below.1⟩, below.2)

/-- The numbers of children planted from `next` on, and the slots and links for them and what is
below them, in the order of their numbers. -/
def Rose.plantAll (parent : Nat) (kind : Kind) (index next : Nat) :
    List (Rose Form) → List Nat × List (Slot × ParentLink)
  | [] => ([], [])
  | r :: rs =>
      let own := r.plant next (next + 1)
      let rest := Rose.plantAll parent kind (index + 1) (next + 1 + own.2.length) rs
      (next :: rest.1, (own.1, ⟨parent, kind.fieldAt index, index⟩) :: own.2 ++ rest.2)

end

namespace SyntaxTree

/-- Puts a tree of forms in the place of a node, below which there is nothing. -/
def plantAt (t : SyntaxTree) (n : Nat) (r : Rose Form) : SyntaxTree :=
  let planted := r.plant n t.slots.size
  { t with
    slots := t.slots.setIfInBounds n (some planted.1) ++ (planted.2.map (some ·.1)).toArray
    parents := t.parents ++ (planted.2.map (some ·.2)).toArray }

/-- The number of the script. -/
def root : Nat := 0

/-- A script in a new arena. -/
def ofScript (s : Script) : SyntaxTree :=
  { slots := #[none], parents := #[none] : SyntaxTree }.plantAt root s.rose

/-! ## Slots -/

/-- The node at a number, if there is one. -/
def slot? (t : SyntaxTree) (n : Nat) : Option Slot := t.slots[n]?.join

/-- The node at a number. -/
def slot (t : SyntaxTree) (n : Nat) : Except Fault Slot :=
  match t.slot? n with
  | some s => .ok s
  | none => .error (.nodeNotFound n)

/-- What the node at a number is, if there is one. -/
def kind? (t : SyntaxTree) (n : Nat) : Option Kind := (t.slot? n).map (·.form.kind)

/-- The children of a node, none if there is no node. -/
def children (t : SyntaxTree) (n : Nat) : List Nat := ((t.slot? n).map Slot.children).getD []

/-- The link of a node to its parent. -/
def parent? (t : SyntaxTree) (n : Nat) : Option ParentLink := t.parents[n]?.join

/-- The numbers with a node, in ascending order. -/
def live (t : SyntaxTree) : List Nat :=
  (List.range t.slots.size).filter fun n => (t.slot? n).isSome

/-- The number of nodes. -/
def size (t : SyntaxTree) : Nat := t.live.length

/-- Whether the script has no statements. -/
def isEmpty (t : SyntaxTree) : Bool := (t.children root).isEmpty

/-! ## Neighbours -/

/-- The first child of a node in a field. -/
def child? (t : SyntaxTree) (n : Nat) (field : Field) : Option Nat :=
  (t.children n).find? fun c => (t.parent? c).any (·.field == field)

/-- The first child of a node. -/
def firstChild? (t : SyntaxTree) (n : Nat) : Option Nat := (t.children n).head?

/-- The child of the same parent after a node. -/
def nextSibling? (t : SyntaxTree) (n : Nat) : Option Nat := do
  let link ← t.parent? n
  (t.children link.parent)[link.index + 1]?

/-- The links from a node up, at most as many as the fuel. -/
def linksUp (t : SyntaxTree) (n : Nat) : Nat → List ParentLink
  | 0 => []
  | fuel + 1 =>
      match t.parent? n with
      | none => []
      | some link => link :: t.linksUp link.parent fuel

/-- The links from the script down to a node. -/
def path (t : SyntaxTree) (n : Nat) : Except Fault (List ParentLink) := do
  let _ ← t.slot n
  return (t.linksUp n t.slots.size).reverse

/-! ## Reading -/

/-- The tree below a node with the numbers of the nodes, if it is at most as deep as the fuel. -/
def branchWithin? (t : SyntaxTree) : Nat → Nat → Option (Rose (Nat × Form))
  | 0, _ => none
  | fuel + 1, n => do
      let s ← t.slot? n
      return .node (n, s.form) (← s.children.mapM (t.branchWithin? fuel))

/-- The tree below a node with the numbers of the nodes. -/
def branch? (t : SyntaxTree) (n : Nat) : Option (Rose (Nat × Form)) :=
  t.branchWithin? t.slots.size n

/-- The nodes of the script in preorder. -/
def nodes (t : SyntaxTree) : List (Nat × Form) := ((t.branch? root).map Rose.labels).getD []

/-- The node at a number, read as a part of a category. -/
def readAs {α : Type} (category : Category) (ofRose? : Rose Form → Option α) (t : SyntaxTree)
    (n : Nat) : Except Fault α := do
  let s ← t.slot n
  if s.form.kind.category = category then
    match (t.branch? n).bind fun r => ofRose? (r.map Prod.snd) with
    | some a => return a
    | none => throw (.violation (.malformed n))
  else throw (.violation (.wrongCategory n s.form.kind.name category))

/-- The statement at a number. -/
def statement (t : SyntaxTree) (n : Nat) : Except Fault Stmt :=
  t.readAs .statement Stmt.ofRose? n

/-- The expression at a number. -/
def expression (t : SyntaxTree) (n : Nat) : Except Fault Expr :=
  t.readAs .expression Expr.ofRose? n

/-- The target at a number. -/
def target (t : SyntaxTree) (n : Nat) : Except Fault Target :=
  t.readAs .target Target.ofRose? n

/-- The script. -/
def toScript (t : SyntaxTree) : Except Fault Script :=
  t.readAs .script Script.ofRose? root

end SyntaxTree

end ScriptRecovery
