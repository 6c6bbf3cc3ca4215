/-!
# Labelled trees

A tree whose nodes carry a label and any number of parts, in order.  `Rose.labels` lists the labels
in preorder: a node before its parts, and the parts from left to right.
-/

namespace ScriptRecovery

/-- A labelled tree. -/
inductive Rose (α : Type)
  /-- A node with its parts. -/
  | node (label : α) (parts : List (Rose α))

namespace Rose

variable {α β : Type}

/-- The label of the root. -/
def label : Rose α → α
  | node a _ => a

/-- The parts of the root. -/
def parts : Rose α → List (Rose α)
  | node _ rs => rs

mutual

/-- The labels in preorder. -/
def labels : Rose α → List α
  | node a rs => a :: labelsAll rs

/-- The labels of trees in a row, in preorder. -/
def labelsAll : List (Rose α) → List α
  | [] => []
  | r :: rs => r.labels ++ labelsAll rs

end

mutual

/-- A tree with its labels changed. -/
def map (f : α → β) : Rose α → Rose β
  | node a rs => node (f a) (mapAll f rs)

/-- Trees in a row with their labels changed. -/
def mapAll (f : α → β) : List (Rose α) → List (Rose β)
  | [] => []
  | r :: rs => r.map f :: mapAll f rs

end

/-- The labels of trees in a row are those of each. -/
theorem labelsAll_eq_flatMap (rs : List (Rose α)) : labelsAll rs = rs.flatMap labels := by
  induction rs with
  | nil => rfl
  | cons r rs ih => simp [labelsAll, ih]

/-- Changing the labels of trees in a row changes those of each. -/
theorem mapAll_eq_map (f : α → β) (rs : List (Rose α)) : mapAll f rs = rs.map (map f) := by
  induction rs with
  | nil => rfl
  | cons r rs ih => simp [mapAll, ih]

end Rose

end ScriptRecovery
