import ScriptRecovery.Proofs.Arena.WellFormed

/-!
# Trees around a place

A `Rose.Context` is a tree with one place left open, given by the way from the root to it.  Every
node of a tree is in such a place (`Rose.exists_plug`), so what an edit does at one node is said by
plugging another tree into the same context.

Trees of numbered forms are the ones that arenas hold.  `Rose.tagged` numbers a tree in preorder.
-/

namespace ScriptRecovery

namespace Rose

variable {α β : Type}

/-- A node on the way to an open place: its label, and its other parts. -/
structure Crumb (α : Type) where
  /-- The label. -/
  label : α
  /-- The parts before the one that the way goes on through. -/
  left : List (Rose α)
  /-- The parts after it. -/
  right : List (Rose α)

/-- The way to an open place, from the root. -/
abbrev Context (α : Type) := List (Crumb α)

namespace Context

/-- The tree with another one in the open place. -/
def plug : Context α → Rose α → Rose α
  | [], r => r
  | c :: C, r => .node c.label (c.left ++ plug C r :: c.right)

/-- The labels before the open place, in preorder. -/
def before : Context α → List α
  | [] => []
  | c :: C => c.label :: labelsAll c.left ++ before C

/-- The labels after the open place, in preorder. -/
def after : Context α → List α
  | [] => []
  | c :: C => after C ++ labelsAll c.right

end Context

theorem labelsAll_append (rs rs' : List (Rose α)) :
    labelsAll (rs ++ rs') = labelsAll rs ++ labelsAll rs' := by
  simp [labelsAll_eq_flatMap]

@[simp] theorem labels_node {a : α} {parts : List (Rose α)} :
    (Rose.node a parts).labels = a :: labelsAll parts := by rw [labels]

theorem label_mem_labels (r : Rose α) : r.label ∈ r.labels := by
  cases r
  simp [label]

theorem mem_labelsAll {a : α} {rs : List (Rose α)} :
    a ∈ labelsAll rs ↔ ∃ r ∈ rs, a ∈ r.labels := by
  simp [labelsAll_eq_flatMap]

@[simp] theorem map_node {f : α → β} {a : α} {parts : List (Rose α)} :
    (Rose.node a parts).map f = .node (f a) (parts.map (map f)) := by
  rw [map, mapAll_eq_map]

mutual

theorem labels_map (f : α → β) : ∀ r : Rose α, (r.map f).labels = r.labels.map f
  | .node a parts => by rw [map, labels_node, labels_node, List.map_cons, labelsAll_mapAll f parts]

theorem labelsAll_mapAll (f : α → β) : ∀ rs : List (Rose α),
    labelsAll (mapAll f rs) = (labelsAll rs).map f
  | [] => rfl
  | r :: rs => by
      rw [mapAll, labelsAll, labelsAll, List.map_append, labels_map f r, labelsAll_mapAll f rs]

end

theorem length_labels_le {r : Rose α} {rs : List (Rose α)} (h : r ∈ rs) :
    r.labels.length ≤ (labelsAll rs).length := by
  induction rs with
  | nil => simp at h
  | cons r' rs ih =>
    rw [labelsAll, List.length_append]
    rcases List.mem_cons.1 h with rfl | h
    · exact Nat.le_add_right _ _
    · have := ih h
      omega

/-- Induction over a tree, with the hypothesis for every part. -/
theorem induct {p : Rose α → Prop}
    (h : ∀ a parts, (∀ r ∈ parts, p r) → p (.node a parts)) : ∀ r, p r
  | .node a parts => h a parts fun r _ => induct h r

theorem labels_plug (C : Context α) (r : Rose α) :
    (C.plug r).labels = C.before ++ r.labels ++ C.after := by
  induction C with
  | nil => simp [Context.plug, Context.before, Context.after]
  | cons c C ih =>
    rw [Context.plug, labels_node, labelsAll_append, labelsAll, ih]
    simp [Context.before, Context.after]

/-- Every label is that of a tree in some place. -/
theorem exists_plug {a : α} {r : Rose α} (h : a ∈ r.labels) :
    ∃ (C : Context α) (sub : Rose α), r = C.plug sub ∧ sub.label = a := by
  induction r using induct with
  | h b parts ih =>
    rcases List.mem_cons.1 (labels_node ▸ h) with rfl | h
    · exact ⟨[], _, rfl, rfl⟩
    · obtain ⟨part, hpart, ha⟩ := mem_labelsAll.1 h
      obtain ⟨left, right, rfl⟩ := List.append_of_mem hpart
      obtain ⟨C, sub, rfl, hsub⟩ := ih part hpart ha
      exact ⟨⟨b, left, right⟩ :: C, sub, rfl, hsub⟩

/-- The context with its labels changed. -/
def Context.map (f : α → β) (C : Context α) : Context β :=
  List.map (fun c => ⟨f c.label, c.left.map (Rose.map f), c.right.map (Rose.map f)⟩) C

theorem map_plug (f : α → β) (C : Context α) (r : Rose α) :
    (C.plug r).map f = (C.map f).plug (r.map f) := by
  induction C with
  | nil => rfl
  | cons c C ih =>
    rw [Context.plug, map_node, List.map_append, List.map_cons, ih]
    rfl

/-! ## Well-formed trees -/

theorem WellFormed.of_plug {C : Context Form} {r : Rose Form} (h : (C.plug r).WellFormed) :
    r.WellFormed := by
  induction C with
  | nil => exact h
  | cons c C ih => exact ih (h.parts _ (by simp))

theorem category_plug {C : Context Form} {r r' : Rose Form} (h : r'.category = r.category) :
    (C.plug r').category = (C.plug r).category := by
  cases C with
  | nil => exact h
  | cons c C => rfl

/-- A part of a well-formed tree can give way to one of the same category. -/
theorem WellFormed.plug {C : Context Form} {r r' : Rose Form} (h : (C.plug r).WellFormed)
    (hr' : r'.WellFormed) (hc : r'.category = r.category) : (C.plug r').WellFormed := by
  induction C with
  | nil => exact hr'
  | cons c C ih =>
    cases h with
    | node hadmits hinput hparts =>
      refine .node ?_ hinput ?_
      · simp only [List.map_append, List.map_cons] at hadmits ⊢
        rwa [category_plug hc]
      · intro x hx
        rw [List.mem_append, List.mem_cons] at hx
        rcases hx with hx | rfl | hx
        · exact hparts x (by simp [hx])
        · exact ih (hparts _ (by simp))
        · exact hparts x (by simp [hx])

/-! ## Numbered trees -/

/-- The number of the root. -/
def number (r : Rose (Nat × Form)) : Nat := r.label.1

/-- The numbers in preorder. -/
def numbers (r : Rose (Nat × Form)) : List Nat := r.labels.map Prod.fst

/-- The forms alone. -/
def forms (r : Rose (Nat × Form)) : Rose Form := r.map Prod.snd

@[simp] theorem number_node {n : Nat} {form : Form} {parts : List (Rose (Nat × Form))} :
    (Rose.node (n, form) parts).number = n := rfl

@[simp] theorem forms_node {n : Nat} {form : Form} {parts : List (Rose (Nat × Form))} :
    (Rose.node (n, form) parts).forms = .node form (parts.map forms) := by
  rw [forms, map_node]
  rfl

theorem numbers_labelsAll (rs : List (Rose (Nat × Form))) :
    (labelsAll rs).map Prod.fst = rs.flatMap numbers := by
  rw [labelsAll_eq_flatMap, List.map_flatMap]
  rfl

theorem numbers_node {n : Nat} {form : Form} {parts : List (Rose (Nat × Form))} :
    (Rose.node (n, form) parts).numbers = n :: parts.flatMap numbers := by
  rw [numbers, labels_node, List.map_cons, numbers_labelsAll]

theorem number_mem_numbers (r : Rose (Nat × Form)) : r.number ∈ r.numbers :=
  List.mem_map_of_mem r.label_mem_labels

theorem length_numbers (r : Rose (Nat × Form)) : r.numbers.length = r.labels.length := by
  simp [numbers]

/-- A node with one expression below it has a part that reads as one.  No statement is in it. -/
theorem WellFormed.exists_operand {x : Nat × Form} {parts : List (Rose (Nat × Form))}
    (h : (Rose.node x parts).forms.WellFormed)
    (hone : ∀ categories, x.2.kind.admits categories → categories = [.expression]) :
    ∃ v e, parts = [v] ∧ v.forms.category = .expression ∧ Expr.ofRose? v.forms = some e ∧
      e.rose = v.forms ∧ ∀ y ∈ v.labels, y.2.kind.category ≠ .statement := by
  rw [forms_node] at h
  obtain ⟨form, hform, hc⟩ := List.map_eq_singleton_iff.1 (hone _ h.admits)
  obtain ⟨v, rfl, rfl⟩ := List.map_eq_singleton_iff.1 hform
  have hv : v.forms.WellFormed := h.parts _ (by simp)
  obtain ⟨e, he, hev⟩ := hv.read.1 hc
  refine ⟨v, e, rfl, hc, he, hev, fun y hy => ?_⟩
  refine hv.no_statement (by simp [hc]) (by simp [hc]) y.2 ?_
  rw [forms, labels_map]
  exact List.mem_map_of_mem hy

theorem numbers_plug (C : Context (Nat × Form)) (r : Rose (Nat × Form)) :
    (C.plug r).numbers = C.before.map Prod.fst ++ r.numbers ++ C.after.map Prod.fst := by
  simp [numbers, labels_plug]

mutual

/-- The tree with `id` at the root and the numbers from `next` on below it, in preorder. -/
def tagged (id next : Nat) : Rose Form → Rose (Nat × Form)
  | .node form parts => .node (id, form) (taggedAll next parts)

/-- The trees with the numbers from `next` on, in preorder. -/
def taggedAll (next : Nat) : List (Rose Form) → List (Rose (Nat × Form))
  | [] => []
  | r :: rs => r.tagged next (next + 1) :: taggedAll (next + r.labels.length) rs

end

@[simp] theorem number_tagged {id next : Nat} {r : Rose Form} : (r.tagged id next).number = id := by
  cases r
  rw [tagged]
  rfl

mutual

@[simp] theorem forms_tagged : ∀ {id next : Nat} (r : Rose Form), (r.tagged id next).forms = r
  | _, _, .node form parts => by
      rw [tagged, forms_node, forms_taggedAll parts]

theorem forms_taggedAll : ∀ {next : Nat} (rs : List (Rose Form)),
    (taggedAll next rs).map forms = rs
  | _, [] => rfl
  | next, r :: rs => by
      rw [taggedAll, List.map_cons, forms_tagged r, forms_taggedAll rs]

end

theorem labels_pos (r : Rose α) : 0 < r.labels.length :=
  List.length_pos_of_mem r.label_mem_labels

mutual

theorem numbers_tagged : ∀ {id next : Nat} (r : Rose Form),
    (r.tagged id next).numbers = id :: List.range' next (r.labels.length - 1)
  | id, next, .node form parts => by
      rw [tagged, numbers_node, numbers_taggedAll parts, labels_node]
      rfl

theorem numbers_taggedAll : ∀ {next : Nat} (rs : List (Rose Form)),
    (taggedAll next rs).flatMap numbers = List.range' next (labelsAll rs).length
  | _, [] => rfl
  | next, r :: rs => by
      have hpos := r.labels_pos
      rw [taggedAll, List.flatMap_cons, numbers_tagged r, numbers_taggedAll rs, labelsAll,
        List.length_append, ← List.range'_append_1, ← List.range'_succ, Nat.sub_add_cancel hpos]

end

end Rose

end ScriptRecovery
