import ScriptRecovery.Action.Basic

/-!
# Streams of actions

A stream says which action starts at an offset and where the next one starts.  It answers at
finitely many offsets.  Nothing is asked of the offsets of the actions that follow one another: a
stream may overlap itself, and the next offset may lie anywhere.

An offset is a number of 64 bits.  A branch whose target is not one leads nowhere.
-/

namespace ScriptRecovery

/-- One readable offset of a stream. -/
structure Stream.Entry where
  /-- Where the action starts. -/
  offset : Nat
  /-- The action. -/
  action : Action
  /-- Where the next action starts. -/
  next : Nat

/-- A stream by its readable offsets. -/
abbrev Stream := List Stream.Entry

/-- The entry at an offset. -/
def Stream.entryAt? (s : Stream) (offset : Nat) : Option Stream.Entry :=
  s.find? (·.offset == offset)

/-- The action that starts at an offset, and where the next one starts. -/
def Stream.readAt? (s : Stream) (offset : Nat) : Option (Action × Nat) :=
  (s.entryAt? offset).map fun e => (e.action, e.next)

/-- A stream in which an offset is not readable. -/
def Stream.without (s : Stream) (offset : Nat) : Stream := s.filter (·.offset != offset)

/-- A readable offset is one entry at least. -/
theorem Stream.length_without_lt {s : Stream} {offset : Nat} {e : Stream.Entry}
    (h : s.entryAt? offset = some e) : (s.without offset).length < s.length := by
  have := List.find?_some h
  exact List.length_filter_lt_length_iff_exists.2 ⟨e, List.mem_of_find?_eq_some h, by simp_all⟩

/-- The number of offsets. -/
def offsetBound : Nat := 0x10000000000000000

/-- Where a branch leads that ends at `next`, if that is an offset. -/
def branchTarget (next : Nat) (displacement : Int16) : Option Nat :=
  let target := (next : Int) + displacement.toInt
  if 0 ≤ target ∧ target < offsetBound then some target.toNat else none

end ScriptRecovery
