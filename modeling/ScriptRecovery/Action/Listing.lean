import ScriptRecovery.Fault
import ScriptRecovery.Action.Stream

/-!
# Listings

A listing is a list of actions laid out one after another in their encoded lengths, the first at
offset zero.  The offset of the length of the listing is where it ends.

`Listing.retarget` points a branch to an action by its position.  A branch has a fixed length,
so a listing with a branch pointed elsewhere keeps its layout.
-/

namespace ScriptRecovery

/-- Actions in program order. -/
structure Listing where
  /-- The actions. -/
  actions : List Action

namespace Listing

/-- The number of actions. -/
def length (l : Listing) : Nat := l.actions.length

/-- Whether there are no actions. -/
def isEmpty (l : Listing) : Bool := l.actions.isEmpty

/-- Where the action at a position starts.  The position past the last action is the end. -/
def offsetOf? (l : Listing) (index : Nat) : Option Nat :=
  if index ≤ l.length then some (total Action.encodedLength (l.actions.take index)) else none

/-- The entries of actions laid out from an offset on. -/
def layout (start : Nat) : List Action → Stream
  | [] => []
  | a :: as =>
      let next := start + a.encodedLength
      ⟨start, a, next⟩ :: layout next as

/-- A listing as a stream. -/
def toStream (l : Listing) : Stream := layout 0 l.actions

/-- The action that starts at an offset, and where the next one starts. -/
def readAt? (l : Listing) (offset : Nat) : Option (Action × Nat) := l.toStream.readAt? offset

/-- The distance from one offset to another as a displacement, if a branch can hold it. -/
def displacement (start dest : Nat) : Except Fault Int16 :=
  let distance := (dest : Int) - start
  if -0x8000 ≤ distance ∧ distance < 0x8000 then .ok (Int16.ofInt distance)
  else .error (.violation (.displacementOverflow distance))

/-- Points the branch at a position to the action at another.  The distance counts from the end of
the branch. -/
def retarget (l : Listing) (index target : Nat) : Except Fault Listing := do
  let some start := l.offsetOf? (index + 1) | throw (.violation (.actionOutOfRange index))
  let some dest := l.offsetOf? target | throw (.violation (.targetOutOfRange target))
  let d ← displacement start dest
  match l.actions[index]? with
  | some (.branch _) => return ⟨l.actions.set index (.branch d)⟩
  | some (.jump _) => return ⟨l.actions.set index (.jump d)⟩
  | some other => throw (.violation (.notBranch other.name index))
  | none => throw (.violation (.actionOutOfRange index))

/-- Points branches in order. -/
def retargetAll (l : Listing) : List (Nat × Nat) → Except Fault Listing
  | [] => .ok l
  | (index, target) :: links => do (← l.retarget index target).retargetAll links

end Listing

end ScriptRecovery
