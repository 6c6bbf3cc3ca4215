/-!
# Marks

A search of a graph with nodes `0, …, n - 1` marks the nodes it has seen.  `Marks` holds one flag
per node.  A node is *free* when it is below `n` and has no mark, so an id outside the graph is
never free and a search passes over it.

Every search of this library ends because each of its steps lowers `Marks.free`, the number of
free nodes, or leaves it and shortens the list of what is still to do.
-/

namespace ScriptRecovery

/-- One flag per node of a graph. -/
structure Marks where
  /-- Whether each node is marked. -/
  flags : Array Bool

namespace Marks

/-- Marks for a graph with `n` nodes, none of them set. -/
def none (n : Nat) : Marks := ⟨Array.replicate n false⟩

/-- Whether a node is in the graph and has no mark. -/
def isFree (m : Marks) (i : Nat) : Bool := m.flags[i]? == some false

/-- Marks one node. -/
def mark (m : Marks) (i : Nat) : Marks := ⟨m.flags.setIfInBounds i true⟩

/-- The number of free nodes. -/
def free (m : Marks) : Nat := m.flags.count false

@[simp] theorem isFree_none (n i : Nat) : (none n).isFree i = decide (i < n) := by
  by_cases h : i < n <;> simp [isFree, none, h]

@[simp] theorem size_mark (m : Marks) (i : Nat) : (m.mark i).flags.size = m.flags.size :=
  Array.size_setIfInBounds

/-- A mark is set for its own node and for no other. -/
@[simp] theorem isFree_mark (m : Marks) (i j : Nat) :
    (m.mark i).isFree j = (m.isFree j && i != j) := by
  unfold isFree mark
  rw [Array.getElem?_setIfInBounds]
  by_cases h : i = j
  · subst h
    by_cases hi : i < m.flags.size <;> simp [hi]
  · simp [h]

/-- A free node is one less after it is marked. -/
theorem free_mark {m : Marks} {i : Nat} (h : m.isFree i) : (m.mark i).free + 1 = m.free := by
  unfold isFree at h
  have hi : i < m.flags.size := by
    by_cases hi : i < m.flags.size
    · exact hi
    · simp [Array.getElem?_eq_none (Nat.le_of_not_lt hi)] at h
  have hf : m.flags[i] = false := by simpa [hi] using h
  have hc : 0 < m.flags.count false :=
    Array.count_pos_iff.2 (hf ▸ Array.getElem_mem hi)
  simp only [free, mark, Array.setIfInBounds, hi, dif_pos]
  rw [Array.count_set hi]
  simp [hf]
  omega

/-- Marks the free ones of some nodes, in order, and puts each on a stack. -/
def enlist (m : Marks) (stack : List Nat) : List Nat → Marks × List Nat
  | [] => (m, stack)
  | i :: is => if m.isFree i then (m.mark i).enlist (i :: stack) is else m.enlist stack is

/-- What enlisting takes from the free nodes it puts on the stack. -/
theorem free_enlist (m : Marks) (stack is : List Nat) :
    (m.enlist stack is).1.free + (m.enlist stack is).2.length = m.free + stack.length := by
  induction is generalizing m stack with
  | nil => rfl
  | cons i is ih =>
    unfold enlist
    split
    · next h =>
      rw [ih, ← free_mark h]
      simp only [List.length_cons]
      omega
    · exact ih m stack

end Marks

end ScriptRecovery
