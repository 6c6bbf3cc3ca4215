import ScriptRecovery.Action.Listing
import ScriptRecovery.Outcome

/-!
# Listings with a table of offsets

A `Layout` keeps the offsets of its actions in a table, which is made once.  Pointing a branch
writes one displacement and leaves the table alone.  Reading bisects the table, and takes the length
of the action that it finds to say where the next one starts.  So nothing here says by itself that
the table is that of the actions, or that an action ends where the table has the next one.

Offsets are words of 64 bits, and a distance is worked out in signed words.  An offset that is no
signed word counts as the first one where a branch ends, and as the last one where it leads to.
-/

namespace ScriptRecovery

/-- Actions with a table of their offsets. -/
structure Layout where
  /-- The actions. -/
  actions : Array Action
  /-- Where each action starts. -/
  offsets : Array Nat
  /-- Where the last action ends. -/
  finish : Nat

/-- The number of offsets that are signed words. -/
def signedBound : Nat := 0x8000000000000000

/-- A branch with another displacement. -/
def Action.redirected? (displacement : Int16) : Action → Option Action
  | branch _ => some (branch displacement)
  | jump _ => some (jump displacement)
  | _ => none

namespace Layout

/-- A table with the offsets of actions added, the first of which starts at an offset, and the
offset where the last one ends. -/
def lay (offsets : Array Nat) (start : Nat) : List Action → Array Nat × Nat
  | [] => (offsets, start)
  | a :: as => lay (offsets.push start) (start + a.encodedLength) as

/-- Lays actions out from offset zero. -/
def ofActions (actions : List Action) : Layout :=
  let laid := lay #[] 0 actions
  ⟨actions.toArray, laid.1, laid.2⟩

/-- Where the action at a position starts.  The position past the last action is the end. -/
def offsetOf? (l : Layout) (index : Nat) : Option Nat :=
  if index = l.actions.size then some l.finish else l.offsets[index]?

/-- The position of an offset among those from one position on and before another. -/
def bisect (offsets : Array Nat) (offset low high : Nat) : Option Nat :=
  if low < high then
    let middle := low + (high - low) / 2
    match offsets[middle]? with
    | none => none
    | some found =>
        if found = offset then some middle
        else if found < offset then bisect offsets offset (middle + 1) high
        else bisect offsets offset low middle
  else none
termination_by high - low

/-- The action that starts at an offset, and where the next one starts. -/
def readAt? (l : Layout) (offset : Nat) : Option (Action × Nat) := do
  let index ← bisect l.offsets offset 0 l.offsets.size
  let action ← l.actions[index]?
  return (action, offset + action.encodedLength)

/-- An offset as a signed word, or another one in its place. -/
def signedOr (other offset : Nat) : Nat := if offset < signedBound then offset else other

/-- Points the branch at a position to the action at another.  The distance counts from the end of
the branch. -/
def point (l : Layout) (index target : Nat) : Outcome Layout :=
  match l.offsetOf? (index + 1) with
  | none => .failed l (.violation (.actionOutOfRange index))
  | some start =>
      match l.offsetOf? target with
      | none => .failed l (.violation (.targetOutOfRange target))
      | some dest =>
          match Listing.displacement (signedOr 0 start) (signedOr (signedBound - 1) dest) with
          | .error fault => .failed l fault
          | .ok d =>
              match l.actions[index]? with
              | none => .failed l (.violation (.actionOutOfRange index))
              | some a =>
                  match a.redirected? d with
                  | none => .failed l (.violation (.notBranch a.name index))
                  | some a' => ⟨{ l with actions := l.actions.setIfInBounds index a' }, .ok true⟩

/-- Points branches one after another.  A link that is refused is passed over. -/
def pointAll (l : Layout) (links : List (Nat × Nat)) : Layout :=
  links.foldl (fun l link => (l.point link.1 link.2).state) l

end Layout

end ScriptRecovery
