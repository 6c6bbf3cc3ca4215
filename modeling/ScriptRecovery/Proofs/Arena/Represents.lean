import Mathlib.Data.List.Nodup
import Mathlib.Data.List.Perm.Subperm
import ScriptRecovery.Arena.Edit
import ScriptRecovery.Proofs.Arena.Context

/-!
# The script an arena holds

An arena represents a numbered tree when every node of the tree is in the slot of its number, with
the numbers of its children there and the link to its parent beside it (`SyntaxTree.Holds`), no
number occurs twice, and there are as many links as slots (`SyntaxTree.Represents`).  Planting makes
an arena represent the tree that `Rose.tagged` numbers, and reading gives the tree back.

What is at numbers of no node of the tree does not matter.
-/

namespace ScriptRecovery

open Rose

namespace SyntaxTree

variable {t t' : SyntaxTree} {link : Option ParentLink} {r : Rose (Nat × Form)}

/-- What an arena has at a number: the node and its link. -/
def cell (t : SyntaxTree) (n : Nat) : Option Slot × Option ParentLink := (t.slot? n, t.parent? n)

/-- Whether a numbered tree is at its numbers. -/
inductive Holds (t : SyntaxTree) : Option ParentLink → Rose (Nat × Form) → Prop
  | node {link : Option ParentLink} {n : Nat} {form : Form} {parts : List (Rose (Nat × Form))} :
      t.cell n = (some ⟨form, parts.map number⟩, link) →
      (∀ i r, parts[i]? = some r → Holds t (some ⟨n, form.kind.fieldAt i, i⟩) r) →
      Holds t link (.node (n, form) parts)

/-- Whether an arena holds a script in the form of a numbered tree. -/
structure Represents (t : SyntaxTree) (r : Rose (Nat × Form)) : Prop where
  holds : t.Holds none r
  root : r.number = root
  nodup : r.numbers.Nodup
  aligned : t.parents.size = t.slots.size

theorem Holds.cell {n : Nat} {form : Form} {parts : List (Rose (Nat × Form))}
    (h : t.Holds link (.node (n, form) parts)) :
    t.cell n = (some ⟨form, parts.map number⟩, link) := by
  cases h with
  | node h _ => exact h

theorem Holds.slot? {n : Nat} {form : Form} {parts : List (Rose (Nat × Form))}
    (h : t.Holds link (.node (n, form) parts)) :
    t.slot? n = some ⟨form, parts.map number⟩ := congrArg Prod.fst h.cell

/-- The root of a tree is linked as the tree is. -/
theorem Holds.parent?_eq (h : t.Holds link r) : t.parent? r.number = link := by
  cases h with
  | node h _ => exact congrArg Prod.snd h

theorem Holds.kind?_eq (h : t.Holds link r) : t.kind? r.number = some r.forms.label.kind := by
  cases r with
  | node label parts =>
    obtain ⟨n, form⟩ := label
    rw [number_node, kind?, h.slot?, forms_node]
    rfl

theorem Holds.part {n : Nat} {form : Form} {parts : List (Rose (Nat × Form))}
    (h : t.Holds link (.node (n, form) parts)) {i : Nat} (hr : parts[i]? = some r) :
    t.Holds (some ⟨n, form.kind.fieldAt i, i⟩) r := by
  cases h with
  | node _ h => exact h i r hr

theorem Holds.mem_part {n : Nat} {form : Form} {parts : List (Rose (Nat × Form))}
    (h : t.Holds link (.node (n, form) parts)) (hr : r ∈ parts) : ∃ link', t.Holds link' r := by
  obtain ⟨i, hi⟩ := List.mem_iff_getElem?.1 hr
  exact ⟨_, h.part hi⟩

/-- Only what is at its numbers matters to a tree. -/
theorem Holds.congr (h : t.Holds link r)
    (hs : ∀ n ∈ r.numbers, t'.cell n = t.cell n) : t'.Holds link r := by
  induction h with
  | @node link n form parts hcell _ ih =>
    rw [numbers_node] at hs
    refine .node ((hs n (by simp)).trans hcell) fun i r hr => ih i r hr fun m hm => hs m ?_
    exact List.mem_cons_of_mem _ (List.mem_flatMap.2 ⟨r, List.mem_of_getElem? hr, hm⟩)

/-- A tree in a place is held with a link of its own, and another one can be held there. -/
theorem Holds.plug {C : Context (Nat × Form)} (h : t.Holds link (C.plug r)) :
    ∃ link', t.Holds link' r ∧ (C = [] → link' = link) ∧
      ∀ {t' : SyntaxTree} {r' : Rose (Nat × Form)}, r'.number = r.number → t'.Holds link' r' →
        (∀ n ∈ C.before.map Prod.fst ++ C.after.map Prod.fst, t'.cell n = t.cell n) →
        t'.Holds link (C.plug r') := by
  induction C generalizing link with
  | nil => exact ⟨link, h, fun _ => rfl, fun _ h _ => h⟩
  | cons c C ih =>
    obtain ⟨⟨n, form⟩, left, right⟩ := c
    simp only [Context.plug] at h ⊢
    have hat : (left ++ Context.plug C r :: right)[left.length]? = some (Context.plug C r) := by
      simp
    obtain ⟨link', hr, -, hput⟩ := ih (h.part hat)
    refine ⟨link', hr, by simp, fun {t' r'} hnum hr' hs => ?_⟩
    have hnum' : (Context.plug C r').number = (Context.plug C r).number := by
      cases C with
      | nil => exact hnum
      | cons c C => rfl
    have hsame : ∀ {x : Rose (Nat × Form)}, x ∈ left ∨ x ∈ right → ∀ m ∈ x.numbers,
        t'.cell m = t.cell m := by
      intro x hx m hm
      obtain ⟨a, ha, rfl⟩ := List.mem_map.1 hm
      refine hs _ ?_
      simp only [Context.before, Context.after, List.map_append, List.map_cons, List.mem_append,
        List.mem_cons]
      rcases hx with hx | hx
      · exact .inl (.inl (.inr (List.mem_map_of_mem (mem_labelsAll.2 ⟨x, hx, ha⟩))))
      · exact .inr (.inr (List.mem_map_of_mem (mem_labelsAll.2 ⟨x, hx, ha⟩)))
    refine .node ?_ fun i x hx => ?_
    · rw [hs n (by simp [Context.before]), h.cell]
      simp only [List.map_append, List.map_cons, hnum']
    · rcases Nat.lt_trichotomy i left.length with hi | rfl | hi
      · rw [List.getElem?_append_left hi] at hx
        exact (h.part ((List.getElem?_append_left hi).trans hx)).congr
          (hsame (.inl (List.mem_of_getElem? hx)))
      · obtain rfl : Context.plug C r' = x := by simpa using hx
        refine hput hnum hr' fun m hm => hs m ?_
        simp only [Context.before, Context.after, List.map_append, List.map_cons,
          List.mem_append, List.mem_cons] at hm ⊢
        tauto
      · obtain ⟨j, rfl⟩ : ∃ j, i = left.length + (j + 1) := ⟨i - left.length - 1, by omega⟩
        have hj : right[j]? = some x := by
          rwa [List.getElem?_append_right (by omega), Nat.add_sub_cancel_left,
            List.getElem?_cons_succ] at hx
        refine (h.part ?_).congr (hsame (.inr (List.mem_of_getElem? hj)))
        rw [List.getElem?_append_right (by omega), Nat.add_sub_cancel_left,
          List.getElem?_cons_succ, hj]

/-! ## Reading -/

theorem lt_size_of_slot? {n : Nat} {s : Slot} (h : t.slot? n = some s) : n < t.slots.size := by
  by_contra hn
  simp [SyntaxTree.slot?, Array.getElem?_eq_none (Nat.le_of_not_lt hn)] at h

theorem Holds.lt_size (h : t.Holds link r) : ∀ n ∈ r.numbers, n < t.slots.size := by
  induction h with
  | @node link n form parts hcell _ ih =>
    intro m hm
    rw [numbers_node, List.mem_cons, List.mem_flatMap] at hm
    rcases hm with rfl | ⟨r, hr, hm⟩
    · exact lt_size_of_slot? (congrArg Prod.fst hcell)
    · obtain ⟨i, hi⟩ := List.mem_iff_getElem?.1 hr
      exact ih i r hi m hm

/-- A tree without repetition has as many nodes as the arena has slots, at most. -/
theorem Holds.length_le (h : t.Holds link r) (hn : r.numbers.Nodup) :
    r.labels.length ≤ t.slots.size := by
  have hsub : r.numbers ⊆ List.range t.slots.size := fun n hn =>
    List.mem_range.2 (h.lt_size n hn)
  have := (List.subperm_of_subset hn hsub).length_le
  rwa [length_numbers, List.length_range] at this

theorem Holds.branchWithin? (h : t.Holds link r) {fuel : Nat} (hf : r.labels.length ≤ fuel) :
    t.branchWithin? fuel r.number = some r := by
  induction h generalizing fuel with
  | @node link n form parts hcell hparts ih =>
    rw [labels_node, List.length_cons] at hf
    obtain ⟨fuel, rfl⟩ : ∃ k, fuel = k + 1 := ⟨fuel - 1, by omega⟩
    have hslot : t.slot? n = _ := congrArg Prod.fst hcell
    have hmap : (parts.map number).mapM (t.branchWithin? fuel) = some parts := by
      have hall : ∀ r ∈ parts, t.branchWithin? fuel r.number = some r := by
        intro r hr
        obtain ⟨i, hi⟩ := List.mem_iff_getElem?.1 hr
        have := length_labels_le hr
        exact ih i r hi (by omega)
      clear hslot hcell hparts ih hf
      induction parts with
      | nil => rfl
      | cons r rs ih =>
        rw [List.map_cons, List.mapM_cons, hall r (by simp),
          ih fun r hr => hall r (by simp [hr])]
        rfl
    rw [number_node, SyntaxTree.branchWithin?, hslot]
    simp [hmap]

/-- Reading a node gives its tree. -/
theorem Holds.branch? (h : t.Holds link r) (hn : r.numbers.Nodup) :
    t.branch? r.number = some r :=
  h.branchWithin? (h.length_le hn)

theorem Represents.nodes (h : t.Represents r) : t.nodes = r.labels := by
  have := h.holds.branch? h.nodup
  rw [h.root] at this
  rw [SyntaxTree.nodes, this]
  rfl

theorem Holds.slot_eq_ok {n : Nat} {form : Form} {parts : List (Rose (Nat × Form))}
    (h : t.Holds link (.node (n, form) parts)) :
    t.slot n = .ok ⟨form, parts.map number⟩ := by
  rw [slot, h.slot?]

theorem Holds.readAs_eq_ok {α : Type} {category : Category} {ofRose? : Rose Form → Option α}
    {a : α} (h : t.Holds link r) (hn : r.numbers.Nodup) (hc : r.forms.category = category)
    (ha : ofRose? r.forms = some a) : t.readAs category ofRose? r.number = .ok a := by
  cases r with
  | node label parts =>
    obtain ⟨n, form⟩ := label
    have hc : form.kind.category = category := by simpa using hc
    have hb := h.branch? hn
    rw [number_node] at hb ⊢
    unfold readAs
    simp only [h.slot_eq_ok, hb, Option.bind_some]
    rw [show (Rose.map Prod.snd (Rose.node (n, form) parts)) = forms _ from rfl, ha]
    simp [bind, Except.bind, hc]
    rfl

/-- The script that an arena represents is what is read from it. -/
theorem Represents.toScript_eq_ok (h : t.Represents r) (hw : r.forms.WellFormed)
    (hc : r.forms.category = .script) : ∃ s, t.toScript = .ok s ∧ s.rose = r.forms := by
  obtain ⟨s, hs, hr⟩ := hw.read_script hc
  refine ⟨s, ?_, hr⟩
  rw [toScript, ← h.root]
  exact h.holds.readAs_eq_ok h.nodup hc hs

/-! ## Planting -/

mutual

theorem length_plant : ∀ (id next : Nat) (r : Rose Form),
    (r.plant id next).2.length + 1 = r.labels.length
  | id, next, .node form parts => by
      rw [Rose.plant, labels_node, length_plantAll parts]
      rfl

theorem length_plantAll : ∀ {parent : Nat} {kind : Kind} {index next : Nat}
    (rs : List (Rose Form)),
    (Rose.plantAll parent kind index next rs).2.length = (labelsAll rs).length
  | _, _, _, _, [] => rfl
  | parent, kind, index, next, r :: rs => by
      have hr := length_plant next (next + 1) r
      simp only [Rose.plantAll, List.length_append, List.length_cons, labelsAll,
        length_plantAll rs]
      omega

end

theorem plantAll_numbers {parent : Nat} {kind : Kind} {index next : Nat} {rs : List (Rose Form)} :
    (Rose.plantAll parent kind index next rs).1 = (taggedAll next rs).map number := by
  induction rs generalizing index next with
  | nil => rfl
  | cons r rs ih =>
    have hr := length_plant next (next + 1) r
    simp only [Rose.plantAll, taggedAll, List.map_cons, number_tagged, ih]
    rw [Nat.add_assoc, Nat.add_comm 1, hr]

mutual

/-- What is planted is held. -/
theorem holds_plant : ∀ {link : Option ParentLink} {id next : Nat} (r : Rose Form),
    t.cell id = (some (r.plant id next).1, link) →
    (∀ (i : Nat) (s : Slot) (l : ParentLink), (r.plant id next).2[i]? = some (s, l) →
      t.cell (next + i) = (some s, some l)) →
    t.Holds link (r.tagged id next)
  | link, id, next, .node form parts, h, hs => by
      rw [Rose.plant] at h hs
      rw [tagged]
      refine .node (h.trans ?_) fun i r hr => ?_
      · rw [plantAll_numbers]
      · have := holds_plantAll parts hs i r hr
        rwa [Nat.zero_add] at this

theorem holds_plantAll : ∀ {parent : Nat} {kind : Kind} {index next : Nat}
    (rs : List (Rose Form)),
    (∀ (i : Nat) (s : Slot) (l : ParentLink),
      (Rose.plantAll parent kind index next rs).2[i]? = some (s, l) →
      t.cell (next + i) = (some s, some l)) →
    ∀ j r', (taggedAll next rs)[j]? = some r' →
      t.Holds (some ⟨parent, kind.fieldAt (index + j), index + j⟩) r'
  | _, _, _, _, [], _, j, r', hr' => by simp [taggedAll] at hr'
  | parent, kind, index, next, r :: rs, hs, j, r', hr' => by
      have hlen := length_plant next (next + 1) r
      simp only [Rose.plantAll] at hs
      cases j with
      | zero =>
        obtain rfl : r.tagged next (next + 1) = r' := by simpa [taggedAll] using hr'
        refine holds_plant r (hs 0 _ _ rfl) fun i s l hi => ?_
        have hlt : i < _ := (List.getElem?_eq_some_iff.1 hi).1
        rw [Nat.add_assoc]
        refine hs (1 + i) s l ?_
        rw [Nat.add_comm 1 i, List.cons_append, List.getElem?_cons_succ,
          List.getElem?_append_left hlt, hi]
      | succ j =>
        rw [Nat.add_left_comm, Nat.add_comm]
        have hr' : (taggedAll (next + r.labels.length) rs)[j]? = some r' := by
          simpa [taggedAll] using hr'
        rw [← hlen, ← Nat.add_assoc, Nat.add_right_comm] at hr'
        exact holds_plantAll rs
          (fun i s l hi => by
            rw [Nat.add_assoc, Nat.add_assoc]
            refine hs _ s l ?_
            rw [Nat.add_comm 1, List.cons_append, List.getElem?_cons_succ,
              List.getElem?_append_right (by omega), Nat.add_sub_cancel_left, hi]) j r' hr'

end

/-- What there is after planting: the new nodes behind all others, and the one in whose place they
were put. -/
theorem cell_plantAt {n m : Nat} {form : Rose Form} (ha : t.parents.size = t.slots.size)
    (hn : n < t.slots.size) :
    (t.plantAt n form).cell m =
      if m < t.slots.size then
        if m = n then (some (form.plant n t.slots.size).1, t.parent? n) else t.cell m
      else
        let new := (form.plant n t.slots.size).2[m - t.slots.size]?
        (new.map Prod.fst, new.map Prod.snd) := by
  simp only [SyntaxTree.cell, SyntaxTree.slot?, SyntaxTree.parent?, plantAt]
  rw [Array.getElem?_append, Array.getElem?_append, Array.size_setIfInBounds, ha]
  split
  · rw [Array.getElem?_setIfInBounds]
    by_cases h : n = m
    · subst h
      simp [hn]
    · simp [h, Ne.symm h]
  · rw [List.getElem?_toArray, List.getElem?_toArray, List.getElem?_map, List.getElem?_map]
    cases (form.plant n t.slots.size).2[m - t.slots.size]? <;> rfl

theorem size_plantAt {n : Nat} {form : Rose Form} :
    (t.plantAt n form).slots.size + 1 = t.slots.size + form.labels.length := by
  have hlen := length_plant n t.slots.size form
  simp only [plantAt, Array.size_append, Array.size_setIfInBounds, List.size_toArray,
    List.length_map]
  omega

theorem aligned_plantAt {n : Nat} {form : Rose Form} (ha : t.parents.size = t.slots.size) :
    (t.plantAt n form).parents.size = (t.plantAt n form).slots.size := by
  simp [plantAt, ha]

/-- What is planted in a place is held there with the link of the place. -/
theorem holds_plantAt {n : Nat} (form : Rose Form) (ha : t.parents.size = t.slots.size)
    (hn : n < t.slots.size) :
    (t.plantAt n form).Holds (t.parent? n) (form.tagged n t.slots.size) := by
  refine holds_plant form ?_ fun i s l hi => ?_
  · rw [cell_plantAt ha hn, if_pos hn, if_pos rfl]
  · rw [cell_plantAt ha hn, if_neg (by omega), Nat.add_sub_cancel_left, hi]
    rfl

/-- A new arena represents its script. -/
theorem represents_ofScript (s : Script) : (ofScript s).Represents (s.rose.tagged 0 1) := by
  refine ⟨?_, number_tagged, ?_, aligned_plantAt rfl⟩
  · exact holds_plantAt s.rose rfl (by simp [root])
  · rw [numbers_tagged]
    refine List.nodup_cons.2 ⟨?_, List.nodup_range'⟩
    rw [List.mem_range'_1]
    omega

end SyntaxTree

end ScriptRecovery
