import ScriptRecovery.Proofs.Arena.Represents

/-!
# Edits of a represented script

When an arena represents a tree, replacing a node plugs the numbered replacement into the place of
the node (`Represents.replace_eq_ok`), and removing a statement takes it out of the parts of its
parent (`Represents.removeStatement_eq_ok`).  Neither fails, as long as no walk is under way.

`SyntaxTree.Editable` is what a sequence of edits keeps: the tree is a well-formed script, and no
walk is under way.  What may be removed from it is in a list of statements, the parts of a script or
of a block (`Editable.listed`).
-/

namespace ScriptRecovery

open Rose

namespace SyntaxTree

variable {t t' : SyntaxTree} {link : Option ParentLink} {r : Rose (Nat × Form)}

/-! ## Giving nodes up -/

theorem Holds.mem_below (h : t.Holds link r) {fuel m : Nat} (hf : r.labels.length ≤ fuel) :
    m ∈ t.below r.number fuel ↔ m ∈ r.numbers := by
  induction h generalizing fuel with
  | @node link n form parts hcell _ ih =>
    rw [labels_node, List.length_cons] at hf
    obtain ⟨fuel, rfl⟩ : ∃ k, fuel = k + 1 := ⟨fuel - 1, by omega⟩
    have hslot : t.slot? n = _ := congrArg Prod.fst hcell
    rw [number_node, SyntaxTree.below, numbers_node, List.mem_cons, List.mem_cons, children, hslot]
    simp only [Option.map_some, Option.getD_some, List.mem_flatMap, List.mem_map]
    refine or_congr_right ⟨?_, ?_⟩
    · rintro ⟨_, ⟨r, hr, rfl⟩, hm⟩
      obtain ⟨i, hi⟩ := List.mem_iff_getElem?.1 hr
      have := length_labels_le hr
      exact ⟨r, hr, (ih i r hi (by omega)).1 hm⟩
    · rintro ⟨r, hr, hm⟩
      obtain ⟨i, hi⟩ := List.mem_iff_getElem?.1 hr
      have := length_labels_le hr
      exact ⟨r.number, ⟨r, hr, rfl⟩, (ih i r hi (by omega)).2 hm⟩

theorem getElem?_foldl_none {α : Type} {gone : List Nat} {xs : Array (Option α)} {m : Nat} :
    (gone.foldl (fun xs n => xs.setIfInBounds n none) xs)[m]?.join =
      if m ∈ gone then none else xs[m]?.join := by
  induction gone generalizing xs with
  | nil => simp
  | cons n ns ih =>
    rw [List.foldl_cons, ih]
    by_cases hm : m ∈ ns
    · simp [hm]
    · rw [if_neg hm, Array.getElem?_setIfInBounds]
      by_cases hn : n = m
      · subst hn
        by_cases hlt : n < xs.size <;> simp [hlt]
      · simp [hm, hn, Ne.symm hn]

theorem size_foldl_none {α : Type} {gone : List Nat} {xs : Array (Option α)} :
    (gone.foldl (fun xs n => xs.setIfInBounds n none) xs).size = xs.size := by
  induction gone generalizing xs with
  | nil => rfl
  | cons n ns ih => rw [List.foldl_cons, ih, Array.size_setIfInBounds]

@[simp] theorem size_slots_vacate {ns : List Nat} :
    (t.vacate ns).slots.size = t.slots.size := size_foldl_none

@[simp] theorem size_parents_vacate {ns : List Nat} :
    (t.vacate ns).parents.size = t.parents.size := size_foldl_none

section Vacating

variable {rs : List (Rose (Nat × Form))} (h : ∀ x ∈ rs, ∃ link, t.Holds link x)
  (hn : ∀ x ∈ rs, x.numbers.Nodup)

include h hn

/-- The nodes that are given up with some others are those below them. -/
theorem mem_gone_iff {m : Nat} :
    m ∈ (rs.map number).flatMap (fun n => t.below n t.slots.size) ↔ m ∈ rs.flatMap numbers := by
  have hbelow : ∀ x ∈ rs, (m ∈ t.below x.number t.slots.size ↔ m ∈ x.numbers) := fun x hx => by
    obtain ⟨link, hl⟩ := h x hx
    exact hl.mem_below (hl.length_le (hn x hx))
  rw [List.flatMap_map, List.mem_flatMap, List.mem_flatMap]
  exact exists_congr fun x => and_congr_right fun hx => hbelow x hx

/-- Giving nodes up leaves nothing of what was below them, and all else. -/
theorem cell_vacate {m : Nat} : (t.vacate (rs.map number)).cell m =
    if m ∈ rs.flatMap numbers then (none, none) else t.cell m := by
  simp only [SyntaxTree.cell, SyntaxTree.slot?, SyntaxTree.parent?, vacate, getElem?_foldl_none,
    mem_gone_iff h hn]
  split <;> rfl

/-- The sources of temporaries that are kept when nodes are given up. -/
theorem scopes_vacate : (t.vacate (rs.map number)).scopes =
    t.scopes.filter fun x => x.1 ∉ rs.flatMap numbers := by
  simp only [vacate, mem_gone_iff h hn]

end Vacating

/-! ## Replacing -/

theorem nodup_part {n : Nat} {form : Form} {parts : List (Rose (Nat × Form))}
    (h : (Rose.node (n, form) parts).numbers.Nodup) : ∀ r ∈ parts, r.numbers.Nodup ∧
      n ∉ r.numbers := by
  rw [numbers_node, List.nodup_cons] at h
  refine fun r hr => ⟨(List.nodup_flatMap.1 h.2).1 r hr, fun hn => h.1 ?_⟩
  exact List.mem_flatMap.2 ⟨r, hr, hn⟩

theorem Represents.nodup_plug {C : Context (Nat × Form)} (h : t.Represents (C.plug r)) :
    r.numbers.Nodup ∧
      (∀ m ∈ C.before.map Prod.fst ++ C.after.map Prod.fst, m ∉ r.numbers ∧ m < t.slots.size) := by
  have hn := h.nodup
  rw [numbers_plug, List.append_assoc, List.nodup_append, List.nodup_append] at hn
  obtain ⟨-, ⟨hr, -, hra⟩, hb⟩ := hn
  refine ⟨hr, fun m hm => ?_⟩
  have hlt : m < t.slots.size := by
    refine h.holds.lt_size m ?_
    rw [numbers_plug]
    simp only [List.mem_append] at hm ⊢
    tauto
  refine ⟨fun hmr => ?_, hlt⟩
  rcases List.mem_append.1 hm with hm | hm
  · exact hb m hm m (by simp [hmr]) rfl
  · exact hra m hmr m hm rfl

/-- The place of a node. -/
theorem Represents.exists_plug (h : t.Represents r) {n : Nat} {form : Form}
    (hn : (n, form) ∈ r.labels) :
    ∃ (C : Context (Nat × Form)) (parts : List (Rose (Nat × Form))),
      r = C.plug (.node (n, form) parts) ∧
        ∀ m ∈ C.before.map Prod.fst ++ C.after.map Prod.fst, m ≠ n := by
  obtain ⟨C, ⟨label, parts⟩, rfl, hlabel⟩ := Rose.exists_plug hn
  obtain rfl : label = (n, form) := hlabel
  refine ⟨C, parts, rfl, fun m hm heq => (h.nodup_plug.2 m hm).1 ?_⟩
  rw [numbers_node, heq]
  exact List.mem_cons_self

/-- The script is in no part of any of its nodes. -/
theorem Represents.root_not_mem_parts {C : Context (Nat × Form)} {n : Nat} {form : Form}
    {parts : List (Rose (Nat × Form))} (h : t.Represents (C.plug (.node (n, form) parts))) :
    SyntaxTree.root ∉ parts.flatMap numbers := by
  have hroot := h.root
  obtain ⟨hnodup, hout⟩ := h.nodup_plug
  rw [numbers_node] at hnodup hout
  cases C with
  | nil => exact hroot ▸ (List.nodup_cons.1 hnodup).1
  | cons c C =>
    have hm := (hout SyntaxTree.root (by
      rw [← hroot]
      simp [Context.before, Context.plug, Rose.number, Rose.label])).1
    exact fun hin => hm (List.mem_cons_of_mem _ hin)

theorem Represents.eq_of_number (h : t.Represents r) {x y : Nat × Form} (hx : x ∈ r.labels)
    (hy : y ∈ r.labels) (hxy : x.1 = y.1) : x = y :=
  List.inj_on_of_nodup_map h.nodup hx hy hxy

theorem Represents.nodup_plug_tagged {C : Context (Nat × Form)} {form : Rose Form}
    (h : t.Represents (C.plug r)) :
    (C.plug (form.tagged r.number t.slots.size)).numbers.Nodup := by
  have hn := h.nodup
  have hout := h.nodup_plug.2
  rw [numbers_plug, List.append_assoc, List.nodup_append, List.nodup_append] at hn ⊢
  obtain ⟨hb, ⟨-, ha, -⟩, hba⟩ := hn
  have hnew : ∀ m ∈ C.before.map Prod.fst ++ C.after.map Prod.fst,
      m ∉ (form.tagged r.number t.slots.size).numbers := by
    intro m hm
    rw [numbers_tagged, List.mem_cons, List.mem_range'_1]
    rintro (rfl | ⟨hle, -⟩)
    · exact (hout _ hm).1 r.number_mem_numbers
    · exact absurd (hout _ hm).2 (by omega)
  have hnum : r.number < t.slots.size := by
    refine h.holds.lt_size _ ?_
    rw [numbers_plug]
    simp [r.number_mem_numbers]
  refine ⟨hb, ⟨?_, ha, ?_⟩, ?_⟩
  · rw [numbers_tagged]
    refine List.nodup_cons.2 ⟨?_, List.nodup_range'⟩
    rw [List.mem_range'_1]
    omega
  · rintro m hm _ hm' rfl
    exact hnew m (List.mem_append_right _ hm') hm
  · rintro m hm _ hm' rfl
    rcases List.mem_append.1 hm' with hm' | hm'
    · exact hnew m (List.mem_append_left _ hm) hm'
    · exact hba m hm m (List.mem_append_right _ hm') rfl

theorem Holds.editable_eq_ok {n : Nat} {form : Form} {parts : List (Rose (Nat × Form))}
    (h : t.Holds link (.node (n, form) parts)) (hwalk : t.readers = []) :
    t.editable n = .ok ⟨form, parts.map number⟩ := by
  rw [editable, isWalked, hwalk, if_neg (by simp), h.slot_eq_ok]

section Replacing

variable {n : Nat} {f : Form} {parts : List (Rose (Nat × Form))}
  (h : t.Holds link (.node (n, f) parts)) (hnodup : (Rose.node (n, f) parts).numbers.Nodup)

include h hnodup

/-- What there is after the parts of a node are given up. -/
theorem Holds.cell_vacate_parts {m : Nat} : (t.vacate (parts.map number)).cell m =
    if m ∈ parts.flatMap numbers then (none, none) else t.cell m :=
  cell_vacate (fun _ hx => h.mem_part hx) fun x hx => (nodup_part hnodup x hx).1

omit h in
theorem not_mem_parts : n ∉ parts.flatMap numbers := by
  rw [numbers_node] at hnodup
  exact (List.nodup_cons.1 hnodup).1

/-- A node stays where it is when its parts are given up. -/
theorem Holds.parent?_vacate_parts : (t.vacate (parts.map number)).parent? n = link := by
  have hcell := h.cell_vacate_parts hnodup (m := n)
  rw [if_neg (not_mem_parts hnodup), h.cell] at hcell
  exact congrArg Prod.snd hcell

/-- What there is at old numbers after others took the place of the parts of a node. -/
theorem Holds.cell_replaced {m : Nat} {form : Rose Form} (ha : t.parents.size = t.slots.size)
    (hm : m < t.slots.size) : ((t.vacate (parts.map number)).plantAt n form).cell m =
      if m ∈ parts.flatMap numbers then (none, none)
      else if m = n then (some (form.plant n t.slots.size).1, link) else t.cell m := by
  have hn : n < t.slots.size := lt_size_of_slot? h.slot?
  rw [cell_plantAt (by simpa using ha) (by simpa using hn), size_slots_vacate, if_pos hm,
    h.cell_vacate_parts hnodup, h.parent?_vacate_parts hnodup]
  by_cases hmn : m = n
  · subst hmn
    rw [if_pos rfl, if_neg (not_mem_parts hnodup), if_pos rfl]
  · rw [if_neg hmn, if_neg hmn]

end Replacing

/-- Replacing a node plugs the replacement into its place. -/
theorem Represents.replace_eq_ok {C : Context (Nat × Form)} {form : Rose Form}
    (h : t.Represents (C.plug r)) (hwalk : t.readers = []) :
    ∃ t', t.replace r.number r.forms.category form = .ok t' ∧
      t'.Represents (C.plug (form.tagged r.number t.slots.size)) ∧ t'.readers = [] := by
  obtain ⟨hnodup, hout⟩ := h.nodup_plug
  obtain ⟨link, hr, -, hput⟩ := h.holds.plug
  cases r with
  | node label parts =>
    obtain ⟨n, f⟩ := label
    have hn : n < t.slots.size := lt_size_of_slot? hr.slot?
    have ha : (t.vacate (parts.map number)).parents.size =
        (t.vacate (parts.map number)).slots.size := by simpa using h.aligned
    have hplanted := holds_plantAt (n := n) form ha (by simpa using hn)
    rw [hr.parent?_vacate_parts hnodup, size_slots_vacate] at hplanted
    refine ⟨(t.vacate (parts.map number)).plantAt n form, ?_,
      ⟨hput number_tagged hplanted fun m hm => ?_, ?_, h.nodup_plug_tagged, aligned_plantAt ha⟩,
      hwalk⟩
    · simp [replace, hr.editable_eq_ok hwalk, bind, Except.bind, pure, Except.pure]
    · obtain ⟨hmr, hlt⟩ := hout m hm
      rw [numbers_node, List.mem_cons, not_or] at hmr
      rw [hr.cell_replaced hnodup h.aligned hlt, if_neg hmr.2, if_neg hmr.1]
    · rw [← h.root]
      cases C with
      | nil => exact number_tagged
      | cons c C => rfl

/-! ## Removing -/

theorem getElem?_modify_map {α : Type} {n m : Nat} {f : α → α} {xs : Array (Option α)} :
    (xs.modify n (Option.map f))[m]?.join =
      if m = n then xs[m]?.join.map f else xs[m]?.join := by
  rw [Array.getElem?_modify]
  by_cases h : n = m
  · subst h
    cases xs[n]? with
    | none => simp
    | some s => cases s <;> simp
  · rw [if_neg h, if_neg (Ne.symm h)]

theorem slot?_dropChild {n i m : Nat} : (t.dropChild n i).slot? m =
    if m = n then (t.slot? m).map fun s => { s with children := s.children.eraseIdx i }
    else t.slot? m := getElem?_modify_map

/-- Moving nodes changes their links alone. -/
theorem parent?_foldl_shiftLink {ns : List Nat} {m : Nat} (hn : ns.Nodup) :
    (ns.foldl shiftLink t).parent? m =
      if m ∈ ns then (t.parent? m).map ParentLink.shifted else t.parent? m := by
  induction ns generalizing t with
  | nil => simp
  | cons n ns ih =>
    rw [List.nodup_cons] at hn
    have hstep : (t.shiftLink n).parent? m =
        if m = n then (t.parent? m).map ParentLink.shifted else t.parent? m := getElem?_modify_map
    rw [List.foldl_cons, ih hn.2, hstep]
    by_cases h : m = n
    · subst h
      simp [hn.1]
    · simp [h]

/-- An arena after nodes have moved, but for their links. -/
theorem shiftLink_foldl_eq (ns : List Nat) : ns.foldl shiftLink t =
    { t with parents := (ns.foldl shiftLink t).parents } := by
  induction ns generalizing t with
  | nil => rfl
  | cons n ns ih => exact ih (t := t.shiftLink n)

theorem slot?_foldl_shiftLink {ns : List Nat} {m : Nat} :
    (ns.foldl shiftLink t).slot? m = t.slot? m := by
  rw [shiftLink_foldl_eq]
  rfl

theorem size_parents_foldl_shiftLink {ns : List Nat} :
    (ns.foldl shiftLink t).parents.size = t.parents.size := by
  induction ns generalizing t with
  | nil => rfl
  | cons n ns ih => exact (ih (t := t.shiftLink n)).trans (by simp [shiftLink])

theorem nodup_numbers_of_nodup {rs : List (Rose (Nat × Form))}
    (h : (rs.flatMap numbers).Nodup) : (rs.map number).Nodup := by
  induction rs with
  | nil => simp
  | cons r rs ih =>
    rw [List.flatMap_cons, List.nodup_append] at h
    rw [List.map_cons, List.nodup_cons]
    refine ⟨fun hm => ?_, ih h.2.1⟩
    obtain ⟨r', hr', heq⟩ := List.mem_map.1 hm
    exact h.2.2 _ r.number_mem_numbers _ (List.mem_flatMap.2 ⟨r', hr', r'.number_mem_numbers⟩)
      heq.symm

theorem mem_numbers_of_part {x : Rose (Nat × Form)} {m : Nat} (hx : x ∈ r.parts)
    (hm : m ∈ x.numbers) : m ∈ r.numbers := by
  cases r with
  | node label parts =>
    obtain ⟨n, form⟩ := label
    rw [numbers_node]
    exact List.mem_cons_of_mem _ (List.mem_flatMap.2 ⟨x, hx, hm⟩)

/-- No number below a root is a root. -/
theorem not_root_of_part {rs : List (Rose (Nat × Form))} {x y : Rose (Nat × Form)} {m : Nat}
    (h : (rs.flatMap numbers).Nodup) (hx : x ∈ rs) (hy : y ∈ x.parts) (hm : m ∈ y.numbers) :
    m ∉ rs.map number := by
  induction rs with
  | nil => simp at hx
  | cons r rs ih =>
    rw [List.flatMap_cons, List.nodup_append] at h
    rw [List.map_cons, List.mem_cons, not_or]
    rcases List.mem_cons.1 hx with rfl | hx
    · constructor
      · rintro rfl
        cases x with
        | node label parts => exact (nodup_part h.1 y hy).2 hm
      · intro hr
        obtain ⟨z, hz, rfl⟩ := List.mem_map.1 hr
        exact h.2.2 _ (mem_numbers_of_part hy hm) _
          (List.mem_flatMap.2 ⟨z, hz, z.number_mem_numbers⟩) rfl
    · refine ⟨?_, ih h.2.1 hx⟩
      rintro rfl
      exact h.2.2 _ r.number_mem_numbers _
        (List.mem_flatMap.2 ⟨x, hx, mem_numbers_of_part hy hm⟩) rfl

/-- A part that moves one position to the front is held there. -/
theorem Holds.shift {n i : Nat} {field : Field} (h : t.Holds (some ⟨n, field, i + 1⟩) r)
    (hroot : t'.cell r.number = ((t.cell r.number).1, (t.cell r.number).2.map ParentLink.shifted))
    (hrest : ∀ x ∈ r.parts, ∀ m ∈ x.numbers, t'.cell m = t.cell m) :
    t'.Holds (some ⟨n, field, i⟩) r := by
  cases h with
  | node hcell hparts =>
    refine .node ?_ fun j x hx => (hparts j x hx).congr (hrest x (List.mem_of_getElem? hx))
    rw [number_node] at hroot
    rw [hroot, hcell]
    rfl

section Removing

variable {C : Context (Nat × Form)} {n : Nat} {form : Form} {left right : List (Rose (Nat × Form))}

/-- The numbers of a node, of one of its parts and of the parts around that are apart. -/
theorem nodup_split (h : (Rose.node (n, form) (left ++ r :: right)).numbers.Nodup) :
    n ∉ left.flatMap numbers ∧ n ∉ r.numbers ∧ n ∉ right.flatMap numbers ∧ r.numbers.Nodup ∧
      (right.flatMap numbers).Nodup ∧ (∀ m ∈ r.numbers, m ∉ right.flatMap numbers) ∧
      ∀ m ∈ left.flatMap numbers, m ∉ r.numbers ∧ m ∉ right.flatMap numbers := by
  rw [numbers_node, List.nodup_cons, List.flatMap_append, List.flatMap_cons, List.mem_append,
    List.mem_append, List.nodup_append, List.nodup_append, not_or, not_or] at h
  obtain ⟨⟨hl, hr, hrs⟩, -, ⟨hrn, hright, hrr⟩, hlr⟩ := h
  refine ⟨hl, hr, hrs, hrn, hright, fun m hm hm' => hrr m hm m hm' rfl, fun m hm => ⟨?_, ?_⟩⟩
  · exact fun hm' => hlr m hm m (List.mem_append_left _ hm') rfl
  · exact fun hm' => hlr m hm m (List.mem_append_right _ hm') rfl

theorem mem_flatMap_numbers {rs : List (Rose (Nat × Form))} {m : Nat} (hm : m ∈ rs.map number) :
    m ∈ rs.flatMap numbers := by
  obtain ⟨x, hx, rfl⟩ := List.mem_map.1 hm
  exact List.mem_flatMap.2 ⟨x, hx, x.number_mem_numbers⟩

/-- What is left after a removal: nothing of the statement, the parent has a child less, and what
came behind it moves. -/
theorem Represents.cell_removed (h : t.Represents (C.plug (.node (n, form) (left ++ r :: right))))
    (m : Nat) :
    ((right.map number).foldl shiftLink
        ((t.vacate [r.number]).dropChild n left.length)).cell m =
      if m ∈ r.numbers then (none, none)
      else (if m = n then (t.slot? m).map fun s =>
          { s with children := s.children.eraseIdx left.length } else t.slot? m,
        if m ∈ right.map number then (t.parent? m).map ParentLink.shifted else t.parent? m) := by
  obtain ⟨hnodup, -⟩ := h.nodup_plug
  obtain ⟨link, hp, -, -⟩ := h.holds.plug
  obtain ⟨-, -, -, hrn, hright, -, -⟩ := nodup_split hnodup
  have hheld : ∀ x ∈ [r], ∃ link, t.Holds link x := by
    simpa using hp.mem_part (r := r) (by simp)
  have hcell := cell_vacate hheld (by simpa using hrn) (m := m)
  rw [List.flatMap_singleton] at hcell
  have hparent : ((t.vacate [r.number]).dropChild n left.length).parent? m =
      (t.vacate [r.number]).parent? m := rfl
  rw [cell, slot?_foldl_shiftLink, slot?_dropChild,
    parent?_foldl_shiftLink (nodup_numbers_of_nodup hright), hparent]
  by_cases hm : m ∈ r.numbers
  · rw [if_pos hm] at hcell ⊢
    obtain ⟨hslot, hlink⟩ := Prod.mk.inj hcell
    simp only [List.map_cons, List.map_nil] at hslot hlink
    simp [hslot, hlink]
  · rw [if_neg hm] at hcell ⊢
    obtain ⟨hslot, hlink⟩ := Prod.mk.inj hcell
    simp only [List.map_cons, List.map_nil] at hslot hlink
    rw [hslot, hlink]

/-- What is left of the arena when a statement is removed. -/
theorem Represents.removeStatement_eq
    (h : t.Represents (C.plug (.node (n, form) (left ++ r :: right)))) (hwalk : t.readers = [])
    (hbody : ∀ i, form.kind.fieldAt i = .body) :
    t.removeStatement r.number = .ok ((right.map number).foldl shiftLink
      ((t.vacate [r.number]).dropChild n left.length)) := by
  obtain ⟨link, hp, -, -⟩ := h.holds.plug
  have hat : (left ++ r :: right)[left.length]? = some r := by simp
  have hr := hp.part hat
  rw [hbody] at hr
  have hlink := hr.parent?_eq
  have hchildren : (t.children n).drop (left.length + 1) = right.map number := by
    rw [children, hp.slot?]
    simp [List.drop_append]
  cases r with
  | node label parts =>
    obtain ⟨k, f⟩ := label
    rw [number_node] at hlink ⊢
    simp [removeStatement, hr.editable_eq_ok hwalk, hlink, bind, Except.bind, pure, Except.pure,
      hchildren]

theorem Represents.cell_unremoved
    (h : t.Represents (C.plug (.node (n, form) (left ++ r :: right)))) {m : Nat}
    (hr : m ∉ r.numbers) (hright : m ∉ right.map number) (hn : m ≠ n) :
    ((right.map number).foldl shiftLink
      ((t.vacate [r.number]).dropChild n left.length)).cell m = t.cell m := by
  rw [h.cell_removed, if_neg hr, if_neg hn, if_neg hright]
  rfl

/-- The parts before the one that goes stay where they are. -/
theorem Represents.holds_left
    (h : t.Represents (C.plug (.node (n, form) (left ++ r :: right))))
    (hbody : ∀ i, form.kind.fieldAt i = .body) {i : Nat} {x : Rose (Nat × Form)}
    (hx : left[i]? = some x) :
    ((right.map number).foldl shiftLink
      ((t.vacate [r.number]).dropChild n left.length)).Holds (some ⟨n, .body, i⟩) x := by
  obtain ⟨link, hp, -⟩ := h.holds.plug
  obtain ⟨hnl, -, -, -, -, -, hlr⟩ := nodup_split h.nodup_plug.1
  have hi : i < left.length := (List.getElem?_eq_some_iff.1 hx).1
  have hx' := hp.part ((List.getElem?_append_left hi).trans hx)
  rw [hbody] at hx'
  refine hx'.congr fun m hm => ?_
  have hm' : m ∈ left.flatMap numbers := List.mem_flatMap.2 ⟨x, List.mem_of_getElem? hx, hm⟩
  refine h.cell_unremoved (hlr m hm').1 (fun hmr => (hlr m hm').2 (mem_flatMap_numbers hmr)) ?_
  rintro rfl
  exact hnl hm'

/-- The parts behind the one that goes move one position to the front. -/
theorem Represents.holds_right
    (h : t.Represents (C.plug (.node (n, form) (left ++ r :: right))))
    (hbody : ∀ i, form.kind.fieldAt i = .body) {j : Nat} {x : Rose (Nat × Form)}
    (hx : right[j]? = some x) :
    ((right.map number).foldl shiftLink
      ((t.vacate [r.number]).dropChild n left.length)).Holds
        (some ⟨n, .body, left.length + j⟩) x := by
  obtain ⟨link, hp, -⟩ := h.holds.plug
  obtain ⟨-, -, hns, -, hright, hrr, -⟩ := nodup_split h.nodup_plug.1
  have hxmem := List.mem_of_getElem? hx
  have hx' := hp.part (i := left.length + j + 1) (r := x) (by
    rw [List.getElem?_append_right (by omega), Nat.add_assoc, Nat.add_sub_cancel_left,
      List.getElem?_cons_succ, hx])
  rw [hbody] at hx'
  have hin : ∀ m ∈ x.numbers, m ∈ right.flatMap numbers :=
    fun m hm => List.mem_flatMap.2 ⟨x, hxmem, hm⟩
  have hxr : ∀ m ∈ x.numbers, m ∉ r.numbers := fun m hm hmr => hrr m hmr (hin m hm)
  refine hx'.shift ?_ fun y hy m hm => ?_
  · have hxn : x.number ≠ n := fun hxn => hns (hxn ▸ hin _ x.number_mem_numbers)
    rw [h.cell_removed, if_neg (hxr _ x.number_mem_numbers), if_neg hxn,
      if_pos (List.mem_map_of_mem hxmem)]
    rfl
  · have hmx : m ∈ x.numbers := mem_numbers_of_part hy hm
    refine h.cell_unremoved (hxr m hmx) (not_root_of_part hright hxmem hy hm) ?_
    rintro rfl
    exact hns (hin _ hmx)

/-- Removing a statement takes it out of the parts of its parent. -/
theorem Represents.removeStatement_eq_ok
    (h : t.Represents (C.plug (.node (n, form) (left ++ r :: right)))) (hwalk : t.readers = [])
    (hbody : ∀ i, form.kind.fieldAt i = .body) :
    ∃ t', t.removeStatement r.number = .ok t' ∧
      t'.Represents (C.plug (.node (n, form) (left ++ right))) ∧ t'.readers = [] := by
  obtain ⟨hnodup, hout⟩ := h.nodup_plug
  obtain ⟨link, hp, -, hput⟩ := h.holds.plug
  obtain ⟨-, hnr, hns, -, -, -, -⟩ := nodup_split hnodup
  have hnodup' : (C.plug (.node (n, form) (left ++ right))).numbers.Nodup := by
    refine h.nodup.sublist ?_
    rw [numbers_plug, numbers_plug, numbers_node, numbers_node]
    refine List.Sublist.append (List.Sublist.append (List.Sublist.refl _) ?_)
      (List.Sublist.refl _)
    refine List.Sublist.cons_cons _ ?_
    rw [List.flatMap_append, List.flatMap_append, List.flatMap_cons]
    exact List.Sublist.append (List.Sublist.refl _) (List.sublist_append_right _ _)
  refine ⟨_, h.removeStatement_eq hwalk hbody, ⟨?_, ?_, hnodup', ?_⟩, ?_⟩
  · refine hput rfl (.node ?_ fun i x hx => ?_) fun m hm => ?_
    · rw [h.cell_removed, if_neg hnr, if_neg fun hn => hns (mem_flatMap_numbers hn), if_pos rfl,
        hp.slot?, show t.parent? n = link from hp.parent?_eq]
      simp [List.eraseIdx_append_of_length_le]
    · rw [hbody]
      rcases Nat.lt_or_ge i left.length with hi | hi
      · rw [List.getElem?_append_left hi] at hx
        exact h.holds_left hbody hx
      · obtain ⟨j, rfl⟩ := Nat.exists_eq_add_of_le hi
        rw [List.getElem?_append_right hi, Nat.add_sub_cancel_left] at hx
        exact h.holds_right hbody hx
    · have hm' := (hout m hm).1
      rw [numbers_node, List.mem_cons, not_or, List.flatMap_append, List.flatMap_cons,
        List.mem_append, List.mem_append, not_or, not_or] at hm'
      exact h.cell_unremoved hm'.2.2.1 (fun hmr => hm'.2.2.2 (mem_flatMap_numbers hmr)) hm'.1
  · rw [← h.root]
    cases C with
    | nil => rfl
    | cons c C => rfl
  · rw [size_parents_foldl_shiftLink, shiftLink_foldl_eq]
    simpa [dropChild] using h.aligned
  · rw [shiftLink_foldl_eq]
    exact hwalk

end Removing

/-! ## Where temporaries are kept -/

/-- A step of the climb from a node to the script it is in. -/
theorem Holds.anchorFrom_succ (h : t.Holds link r) (fuel : Nat) :
    t.anchorFrom r.number (fuel + 1) =
      if r.forms.label.kind = .script then .ok r.number
      else match link with
        | some l => t.anchorFrom l.parent fuel
        | none => .ok r.number := by
  have hlink := h.parent?_eq
  cases r with
  | node label parts =>
    obtain ⟨n, f⟩ := label
    rw [number_node] at hlink ⊢
    rw [anchorFrom, h.slot_eq_ok, hlink, forms_node]
    show (if f.kind = .script then _ else _) = if f.kind = .script then _ else _
    split
    · rfl
    · cases link <;> rfl

/-- Climbing from a node of a tree leads to its root, since no part of syntax is a script. -/
theorem Holds.anchorFrom_eq (h : t.Holds link r) (hw : r.forms.WellFormed) {m : Nat}
    (hm : m ∈ r.numbers) : ∃ up < r.labels.length, ∀ fuel,
      t.anchorFrom m (fuel + up) = t.anchorFrom r.number fuel := by
  induction h with
  | @node link n form parts _ hparts ih =>
    rw [numbers_node, List.mem_cons, List.mem_flatMap] at hm
    rcases hm with rfl | ⟨x, hx, hm⟩
    · exact ⟨0, by simp, fun _ => rfl⟩
    obtain ⟨i, hi⟩ := List.mem_iff_getElem?.1 hx
    rw [forms_node] at hw
    have hkind : x.forms.label.kind ≠ .script := fun hk =>
      Kind.not_script_of_admits hw.admits _
        (List.mem_map_of_mem (List.mem_map_of_mem hx)) (congrArg Kind.category hk)
    obtain ⟨up, hlt, hup⟩ := ih i x hi (hw.parts _ (List.mem_map_of_mem hx)) hm
    refine ⟨up + 1, ?_, fun fuel => ?_⟩
    · have := length_labels_le hx
      rw [labels_node, List.length_cons]
      omega
    · rw [show fuel + (up + 1) = fuel + 1 + up by omega, hup, (hparts i x hi).anchorFrom_succ,
        if_neg hkind, number_node]

/-- The temporaries for every node are kept at the script. -/
theorem Represents.anchor_eq_ok (h : t.Represents r) (hw : r.forms.WellFormed)
    (hc : r.forms.category = .script) {m : Nat} (hm : m ∈ r.numbers) :
    t.anchor m = .ok SyntaxTree.root := by
  obtain ⟨up, hlt, hup⟩ := h.holds.anchorFrom_eq hw hm
  have hle := h.holds.length_le h.nodup
  obtain ⟨fuel, hfuel⟩ : ∃ fuel, t.slots.size = fuel + 1 + up := ⟨t.slots.size - up - 1, by omega⟩
  rw [anchor, hfuel, hup, h.holds.anchorFrom_succ, if_pos (Kind.eq_script_of_category hc), h.root]

/-- The source of temporaries for a node is that of the script. -/
theorem Represents.useScope_eq (h : t.Represents r) (hw : r.forms.WellFormed)
    (hc : r.forms.category = .script) {m : Nat} (hm : m ∈ r.numbers) {α : Type}
    (use : Scope → Except Fault (α × Scope)) :
    t.useScope m use = (t.currentScope SyntaxTree.root).bind fun s =>
      (use s).bind fun (a, s) => .ok (a, t.keepScope SyntaxTree.root s) := by
  rw [useScope, h.anchor_eq_ok hw hc hm]
  rfl

@[simp] theorem scope?_keepScope {n : Nat} {s : Scope} : (t.keepScope n s).scope? n = some s := by
  simp [scope?, keepScope]

/-! ## Scripts that can be edited -/

/-- Whether an arena represents a well-formed script that is not being walked. -/
structure Editable (t : SyntaxTree) (r : Rose (Nat × Form)) : Prop where
  represents : t.Represents r
  readers : t.readers = []
  wellFormed : r.forms.WellFormed
  category : r.forms.category = .script

theorem Editable.of_plug {C : Context (Nat × Form)} (h : t.Editable (C.plug r)) :
    r.forms.WellFormed := by
  have := h.wellFormed
  rw [forms, map_plug] at this
  exact this.of_plug

/-- A new arena can be edited. -/
theorem editable_ofScript (s : Script) : (ofScript s).Editable (s.rose.tagged 0 1) :=
  ⟨represents_ofScript s, rfl, by rw [forms_tagged]; exact s.wellFormed_rose,
    by rw [forms_tagged]; rfl⟩

/-- Where temporaries are kept does not matter to edits. -/
theorem Editable.keepScope (h : t.Editable r) (n : Nat) (s : Scope) :
    (t.keepScope n s).Editable r :=
  ⟨⟨h.represents.holds.congr fun _ _ => rfl, h.represents.root, h.represents.nodup,
    h.represents.aligned⟩, h.readers, h.wellFormed, h.category⟩

/-- Whatever keeps a script well-formed keeps it editable. -/
theorem Editable.plug {C : Context (Nat × Form)} {r' : Rose (Nat × Form)}
    (h : t.Editable (C.plug r)) (ht : t'.Represents (C.plug r')) (hr : t'.readers = [])
    (hw : r'.forms.WellFormed) (hc : r'.forms.category = r.forms.category) :
    t'.Editable (C.plug r') := by
  have hwhole := h.wellFormed
  have hscript := h.category
  rw [forms, map_plug] at hwhole hscript
  refine ⟨ht, hr, ?_, ?_⟩
  · rw [forms, map_plug]
    exact hwhole.plug hw hc
  · rw [forms, map_plug]
    exact (category_plug hc).trans hscript

/-- Well-formed syntax takes the place of a node of its category. -/
theorem Editable.replace_eq_ok {C : Context (Nat × Form)} {form : Rose Form}
    (h : t.Editable (C.plug r)) (hw : form.WellFormed) (hc : form.category = r.forms.category) :
    ∃ t', t.replace r.number form.category form = .ok t' ∧
      t'.Editable (C.plug (form.tagged r.number t.slots.size)) := by
  obtain ⟨t', hok, ht', hr⟩ := h.represents.replace_eq_ok h.readers
  refine ⟨t', hc ▸ hok, h.plug ht' hr ?_ ?_⟩
  · rwa [forms_tagged]
  · rwa [forms_tagged]

/-- A statement is taken out of the list it is in. -/
theorem Editable.removeStatement_eq_ok {C : Context (Nat × Form)} {n : Nat} {form : Form}
    {left right : List (Rose (Nat × Form))}
    (h : t.Editable (C.plug (.node (n, form) (left ++ r :: right))))
    (hk : form.kind = .script ∨ form.kind = .block) :
    ∃ t', t.removeStatement r.number = .ok t' ∧
      t'.Editable (C.plug (.node (n, form) (left ++ right))) := by
  have hbody : ∀ i, form.kind.fieldAt i = .body := by
    rcases hk with hk | hk <;> simp [hk, Kind.fieldAt]
  obtain ⟨t', hok, ht', hr⟩ := h.represents.removeStatement_eq_ok h.readers hbody
  have hw := h.of_plug
  rw [forms_node] at hw
  have hadmits := hw.admits
  have hsub : left ++ right ⊆ left ++ r :: right := fun x hx => by
    rw [List.mem_append] at hx ⊢
    exact hx.imp_right (List.mem_cons_of_mem _)
  refine ⟨t', hok, h.plug ht' hr ?_ ?_⟩
  · rw [forms_node]
    refine .node ?_ (fun index hi => ?_) fun x hx => hw.parts x ?_
    · rcases hk with hk | hk <;> rw [hk] at hadmits ⊢ <;>
        exact fun c hc => hadmits c (List.map_subset _ (List.map_subset _ hsub) hc)
    · rcases hk with hk | hk <;> simp [hk] at hi
    · exact List.map_subset _ hsub hx
  · rw [forms_node, forms_node]
    rfl

end SyntaxTree

/-! ## Elements of lists -/

namespace Rose

/-- Whether the node at a number is an element of a list of statements. -/
inductive Listed (n : Nat) : Rose (Nat × Form) → Prop
  | here {k : Nat} {form : Form} {parts : List (Rose (Nat × Form))} {x : Rose (Nat × Form)} :
      form.kind = .script ∨ form.kind = .block → x ∈ parts → x.number = n →
      Listed n (.node (k, form) parts)
  | there {a : Nat × Form} {parts : List (Rose (Nat × Form))} {x : Rose (Nat × Form)} :
      x ∈ parts → Listed n x → Listed n (.node a parts)

theorem Listed.exists_plug {n : Nat} {r : Rose (Nat × Form)} (h : Listed n r) :
    ∃ (C : Context (Nat × Form)) (k : Nat) (form : Form) (left : List (Rose (Nat × Form)))
      (x : Rose (Nat × Form)) (right : List (Rose (Nat × Form))),
      r = C.plug (.node (k, form) (left ++ x :: right)) ∧ x.number = n ∧
        (form.kind = .script ∨ form.kind = .block) := by
  induction h with
  | @here k form parts x hk hx hn =>
    obtain ⟨left, right, rfl⟩ := List.append_of_mem hx
    exact ⟨[], k, form, left, x, right, rfl, hn, hk⟩
  | @there a parts x hx _ ih =>
    obtain ⟨before, after, rfl⟩ := List.append_of_mem hx
    obtain ⟨C, k, form, left, y, right, rfl, hn, hk⟩ := ih
    exact ⟨⟨a, before, after⟩ :: C, k, form, left, y, right, rfl, hn, hk⟩

end Rose

namespace SyntaxTree

variable {t : SyntaxTree} {r : Rose (Nat × Form)}

/-- Only scripts and blocks have children in a list of statements. -/
theorem list_of_fieldAt {form : Form} {parts : List (Rose Form)} {i : Nat}
    (h : (Rose.node form parts).WellFormed) (hp : parts ≠ []) (hf : form.kind.fieldAt i = .body) :
    form.kind = .script ∨ form.kind = .block := by
  have hadmits := h.admits
  obtain ⟨kind, loc⟩ := form
  cases kind <;> simp only [Kind.admits, List.map_eq_nil_iff] at hadmits <;>
    first
    | exact .inl rfl
    | exact .inr rfl
    | exact absurd hadmits hp
    | (rcases i with _ | _ | i <;> simp [Kind.fieldAt] at hf)

theorem Holds.listed {link : Option ParentLink} {n : Nat} (h : t.Holds link r)
    (hw : r.forms.WellFormed) (hn : n ∈ r.numbers) (hroot : n ≠ r.number)
    (hl : t.inList n = true) : Listed n r := by
  induction h with
  | @node link k form parts hslot hparts ih =>
    rw [forms_node] at hw
    rw [numbers_node, List.mem_cons, List.mem_flatMap] at hn
    rcases hn with hn | ⟨x, hx, hn⟩
    · exact absurd hn hroot
    obtain ⟨i, hi⟩ := List.mem_iff_getElem?.1 hx
    by_cases hxn : n = x.number
    · refine .here (list_of_fieldAt (i := i) hw ?_ ?_) hx hxn.symm
      · rintro hnil
        rw [List.map_eq_nil_iff] at hnil
        simp [hnil] at hx
      · have hheld := hparts i x hi
        rw [inList, hxn, hheld.parent?_eq] at hl
        simpa using hl
    · exact .there hx (ih i x hi (hw.parts _ (List.mem_map_of_mem hx)) hn hxn)

/-- What the arena takes for an element of a list is one. -/
theorem Editable.listed {n : Nat} (h : t.Editable r) (hn : n ∈ r.numbers)
    (hl : t.inList n = true) : Listed n r := by
  refine h.represents.holds.listed h.wellFormed hn ?_ hl
  rintro rfl
  rw [inList, h.represents.holds.parent?_eq] at hl
  cases hl

end SyntaxTree

end ScriptRecovery
