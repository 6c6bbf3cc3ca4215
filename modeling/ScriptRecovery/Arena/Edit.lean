import ScriptRecovery.Arena.Cursor

/-!
# Edits of a syntax tree

A statement, expression or target gives way to another one in its place, and an element of a list
of statements is taken out.  The node that gives way keeps its number and its place.  Everything
that was below it is gone, and what comes instead gets new numbers after all that were ever used.

An edit is refused while the tree is being walked, and a refused edit has no result.
-/

namespace ScriptRecovery

/-- A link one position to the front. -/
def ParentLink.shifted (l : ParentLink) : ParentLink := { l with index := l.index - 1 }

namespace SyntaxTree

/-- The numbers of a node and everything below it, at most as deep as the fuel. -/
def below (t : SyntaxTree) (n : Nat) : Nat → List Nat
  | 0 => []
  | fuel + 1 => n :: (t.children n).flatMap fun c => t.below c fuel

/-- Empties the slots of nodes and everything below them, with the links and the sources of
temporaries there. -/
def vacate (t : SyntaxTree) (ns : List Nat) : SyntaxTree :=
  let gone := ns.flatMap fun n => t.below n t.slots.size
  { t with
    slots := gone.foldl (fun slots n => slots.setIfInBounds n none) t.slots
    parents := gone.foldl (fun parents n => parents.setIfInBounds n none) t.parents
    scopes := t.scopes.filter fun p => p.1 ∉ gone }

/-- The node at a number of a tree that is not being walked. -/
def editable (t : SyntaxTree) (n : Nat) : Except Fault Slot :=
  if t.isWalked then .error .traversalActive else t.slot n

/-! ## Replacing -/

/-- Puts a tree of forms in the place of a node of the same category. -/
def replace (t : SyntaxTree) (n : Nat) (category : Category) (r : Rose Form) :
    Except Fault SyntaxTree := do
  let s ← t.editable n
  if s.form.kind.category = category then
    return (t.vacate s.children).plantAt n r
  else throw (.violation (.replaceMismatch s.form.kind.name n category))

/-- Puts a statement in the place of one. -/
def replaceStatement (t : SyntaxTree) (n : Nat) (s : Stmt) : Except Fault SyntaxTree :=
  t.replace n .statement s.rose

/-- Puts an expression in the place of one. -/
def replaceExpression (t : SyntaxTree) (n : Nat) (e : Expr) : Except Fault SyntaxTree :=
  t.replace n .expression e.rose

/-- Puts a target in the place of one. -/
def replaceTarget (t : SyntaxTree) (n : Nat) (p : Target) : Except Fault SyntaxTree :=
  t.replace n .target p.rose

/-! ## Removing -/

/-- Whether a node is an element of a list of statements. -/
def inList (t : SyntaxTree) (n : Nat) : Bool := (t.parent? n).any (·.field == .body)

/-- Takes the child at a position out of a node. -/
def dropChild (t : SyntaxTree) (n index : Nat) : SyntaxTree :=
  { t with
    slots := t.slots.modify n <| Option.map fun s =>
      { s with children := s.children.eraseIdx index } }

/-- Moves a node one position to the front in its parent. -/
def shiftLink (t : SyntaxTree) (n : Nat) : SyntaxTree :=
  { t with parents := t.parents.modify n (Option.map ParentLink.shifted) }

/-- Takes a statement out of the list it is in. -/
def removeStatement (t : SyntaxTree) (n : Nat) : Except Fault SyntaxTree := do
  let _ ← t.editable n
  match t.parent? n with
  | some ⟨parent, .body, index⟩ =>
      let later := (t.children parent).drop (index + 1)
      return later.foldl shiftLink ((t.vacate [n]).dropChild parent index)
  | _ => throw (.violation (.notInList n))

/-! ## Temporaries -/

/-- The source of temporaries that a node holds. -/
def scope? (t : SyntaxTree) (n : Nat) : Option Scope := t.scopes.lookup n

/-- The tree with a source of temporaries at a node. -/
def keepScope (t : SyntaxTree) (n : Nat) (s : Scope) : SyntaxTree :=
  { t with scopes := (n, s) :: t.scopes.filter (·.1 ≠ n) }

/-- The script that a node is in, or else the topmost node above it, at most as many steps up as the
fuel. -/
def anchorFrom (t : SyntaxTree) (n : Nat) : Nat → Except Fault Nat
  | 0 => .error (.violation (.malformed n))
  | fuel + 1 => do
      let s ← t.slot n
      if s.form.kind = .script then return n
      match t.parent? n with
      | some link => t.anchorFrom link.parent fuel
      | none => return n

/-- The node that holds the source of temporaries for a live node. -/
def anchor (t : SyntaxTree) (n : Nat) : Except Fault Nat := t.anchorFrom n t.slots.size

/-- The source of temporaries that a node is to hold.  A new one starts after the greatest temporary
below the node. -/
def currentScope (t : SyntaxTree) (n : Nat) : Except Fault Scope :=
  match t.scope? n with
  | some s => .ok s
  | none =>
      let below := ((t.branch? n).map Rose.labels).getD []
      match (below.filterMap fun x => x.2.kind.temporary?).max? with
      | none => .ok {}
      | some greatest =>
          if greatest + 1 < counterBound then .ok ⟨greatest + 1⟩ else .error .counterOverflow

/-- Uses the source of temporaries for a live node. -/
def useScope {α : Type} (t : SyntaxTree) (n : Nat) (use : Scope → Except Fault (α × Scope)) :
    Except Fault (α × SyntaxTree) := do
  let holder ← t.anchor n
  let s ← t.currentScope holder
  let (a, s) ← use s
  return (a, t.keepScope holder s)

/-- Gives out one temporary for use at a live node. -/
def freshTemporary (t : SyntaxTree) (n : Nat) : Except Fault (Nat × SyntaxTree) :=
  t.useScope n Scope.fresh

end SyntaxTree

end ScriptRecovery
